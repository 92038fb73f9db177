/-
The text of a key determines the key, unless it holds a floating-point
number. Every part of the text says itself where it ends: a quoted text at
its quote, a number before the first character that is no digit, an array
at its bracket. So two texts that begin with parts of the same kind begin
with the same part, and go on alike behind it.
-/
import Mathlib.Data.List.TakeWhile
import RecordQuery.Value.Json

namespace RecordQuery

-- ================================================================ digits

namespace Json

theorem natural_inj {m n : Nat} (h : natural m = natural n) : m = n := by
  have hvalue := congrArg (Nat.ofDigitChars 10 · 0) h
  simpa only [natural, Nat.ofDigitChars_ten_toDigits] using hvalue

theorem isDigit_of_mem_natural {n : Nat} {c : Char} (h : c ∈ natural n) : c.isDigit = true :=
  Nat.isDigit_of_mem_toDigits (by decide) (by decide) h

theorem takeWhile_natural (n : Nat) {c : Char} (hc : c.isDigit = false) (rest : List Char) :
    (natural n ++ c :: rest).takeWhile Char.isDigit = natural n := by
  rw [List.takeWhile_append_of_pos fun d hd => isDigit_of_mem_natural hd,
    List.takeWhile_cons_of_neg (by rw [hc]; exact Bool.false_ne_true), List.append_nil]

/-- A number ends before the first character that is no digit. -/
theorem natural_cancel {m n : Nat} {c d : Char} {rest rest' : List Char}
    (hc : c.isDigit = false) (hd : d.isDigit = false)
    (h : natural m ++ c :: rest = natural n ++ d :: rest') : m = n ∧ c :: rest = d :: rest' := by
  have hdigits := congrArg (List.takeWhile Char.isDigit) h
  rw [takeWhile_natural m hc, takeWhile_natural n hd] at hdigits
  rw [hdigits] at h
  exact ⟨natural_inj hdigits, List.append_cancel_left h⟩

theorem natural_ne_cons {n : Nat} {c : Char} (hc : c.isDigit = false)
    (rest rest' : List Char) : natural n ++ rest ≠ c :: rest' := by
  intro h
  cases hn : natural n with
  | nil => exact Nat.toDigits_ne_nil hn
  | cons d ds =>
      have hd : d.isDigit = true := isDigit_of_mem_natural (by rw [hn]; exact List.mem_cons_self)
      rw [hn, List.cons_append, List.cons.injEq] at h
      rw [h.1, hc] at hd
      exact Bool.false_ne_true hd

/-- A whole number ends before the first character that is no digit. -/
theorem integer_cancel {m n : Int} {c d : Char} {rest rest' : List Char}
    (hc : c.isDigit = false) (hd : d.isDigit = false)
    (h : integer m ++ c :: rest = integer n ++ d :: rest') : m = n ∧ c :: rest = d :: rest' := by
  unfold integer at h
  split at h <;> split at h
  · rw [List.cons_append, List.cons_append, List.cons.injEq] at h
    obtain ⟨habs, hrest⟩ := natural_cancel hc hd h.2
    exact ⟨by omega, hrest⟩
  · exact absurd h.symm (natural_ne_cons rfl _ _)
  · exact absurd h (natural_ne_cons rfl _ _)
  · obtain ⟨habs, hrest⟩ := natural_cancel hc hd h
    exact ⟨by omega, hrest⟩

-- ================================================================= texts

/-- The character that an escape stands for, and what follows it. -/
def unescape : List Char → Option (Char × List Char)
  | '\\' :: 'u' :: '0' :: '0' :: high :: low :: rest =>
    match Hex.value? high, Hex.value? low with
    | some h, some l => some (Char.ofNat (16 * h + l), rest)
    | _, _ => none
  | '\\' :: 'b' :: rest => some (Char.ofNat 0x08, rest)
  | '\\' :: 't' :: rest => some (Char.ofNat 0x09, rest)
  | '\\' :: 'n' :: rest => some (Char.ofNat 0x0A, rest)
  | '\\' :: 'f' :: rest => some (Char.ofNat 0x0C, rest)
  | '\\' :: 'r' :: rest => some (Char.ofNat 0x0D, rest)
  | '\\' :: c :: rest => some (c, rest)
  | c :: rest => some (c, rest)
  | [] => none

theorem unescape_of_ne {c : Char} (h : c ≠ '\\') (rest : List Char) :
    unescape (c :: rest) = some (c, rest) := by
  rw [unescape.eq_def]
  split <;> simp_all

theorem unescape_escape (c : Char) (rest : List Char) :
    unescape (escape c ++ rest) = some (c, rest) := by
  have hchar : ∀ {n : Nat}, c.toNat = n → Char.ofNat n = c := by
    rintro n rfl
    exact Char.ofNat_toNat c
  unfold escape
  split
  · next h => rw [h]; rfl
  split
  · next h => rw [h]; rfl
  split
  · next h => rw [← hchar h]; rfl
  split
  · next h => rw [← hchar h]; rfl
  split
  · next h => rw [← hchar h]; rfl
  split
  · next h => rw [← hchar h]; rfl
  split
  · next h => rw [← hchar h]; rfl
  split
  · next h =>
    have hhigh := Hex.value?_digit (c.toNat / 16) (by omega)
    have hlow := Hex.value?_digit (c.toNat % 16) (by omega)
    simp only [List.cons_append, List.nil_append, unescape, hhigh, hlow]
    rw [hchar (by omega)]
  · next h _ _ _ _ _ _ =>
    exact unescape_of_ne h rest

/-- No escape begins with a quote. -/
theorem quote_ne_escape (c : Char) (rest rest' : List Char) :
    '"' :: rest ≠ escape c ++ rest' := by
  intro h
  have hfirst := congrArg unescape h
  rw [unescape_of_ne (by decide), unescape_escape, Option.some.injEq, Prod.mk.injEq] at hfirst
  rw [← hfirst.1] at h
  simp [escape] at h

/-- A text ends at its quote. -/
theorem escaped_cancel {cs : List Char} : ∀ {ds rest rest' : List Char},
    cs.flatMap escape ++ '"' :: rest = ds.flatMap escape ++ '"' :: rest' →
      cs = ds ∧ rest = rest' := by
  induction cs with
  | nil =>
      intro ds rest rest' h
      cases ds with
      | nil =>
          cases h
          exact ⟨rfl, rfl⟩
      | cons d ds =>
          rw [List.flatMap_cons, List.append_assoc] at h
          exact absurd h (quote_ne_escape _ _ _)
  | cons c cs ih =>
      intro ds rest rest' h
      cases ds with
      | nil =>
          rw [List.flatMap_cons, List.append_assoc] at h
          exact absurd h.symm (quote_ne_escape _ _ _)
      | cons d ds =>
          rw [List.flatMap_cons, List.flatMap_cons, List.append_assoc, List.append_assoc] at h
          have hfirst := congrArg unescape h
          rw [unescape_escape, unescape_escape, Option.some.injEq, Prod.mk.injEq] at hfirst
          obtain ⟨hcs, hrest⟩ := ih hfirst.2
          exact ⟨by rw [hfirst.1, hcs], hrest⟩

theorem quote_cancel {cs ds rest rest' : List Char}
    (h : quote cs ++ rest = quote ds ++ rest') : cs = ds ∧ rest = rest' := by
  unfold quote at h
  rw [List.cons_append, List.cons_append, List.append_assoc, List.append_assoc] at h
  exact escaped_cancel (List.cons.inj h).2

-- ================================================================ arrays

/-- What may follow an element of an array. -/
def isEnd (c : Char) : Bool :=
  c == ',' || c == ']'

/-- A way of writing elements of which each is known in front of what may
follow it. -/
structure Delimited {α : Type} (write : α → List Char) (valid : α → Prop) : Prop where
  cancel : ∀ {x y : α} {c d : Char} {rest rest' : List Char}, valid x → valid y →
    isEnd c = true → isEnd d = true → write x ++ c :: rest = write y ++ d :: rest' →
    x = y ∧ c :: rest = d :: rest'
  head : ∀ {x : α} {rest rest' : List Char}, valid x → write x ++ rest ≠ ']' :: rest'

/-- The elements of an array behind the first, up to the bracket. -/
def further {α : Type} (write : α → List Char) (xs : List α) (rest : List Char) : List Char :=
  xs.flatMap (fun x => ',' :: write x) ++ ']' :: rest

theorem further_eq_cons {α : Type} (write : α → List Char) (xs : List α) (rest : List Char) :
    ∃ c cs, isEnd c = true ∧ further write xs rest = c :: cs := by
  cases xs with
  | nil => exact ⟨_, _, rfl, rfl⟩
  | cons x xs => exact ⟨_, _, rfl, rfl⟩

theorem intercalate_further {α : Type} (write : α → List Char) (x : α) (xs : List α)
    (rest : List Char) :
    [','].intercalate ((x :: xs).map write) ++ ']' :: rest
      = write x ++ further write xs rest := by
  induction xs generalizing x with
  | nil => simp [further]
  | cons y xs ih =>
      rw [List.map_cons, List.map_cons, List.intercalate_cons_cons, ← List.map_cons,
        List.append_assoc, ih]
      simp [further]

section Arrays

variable {α : Type} {write : α → List Char} {valid : α → Prop}

theorem Delimited.further_cancel (hw : Delimited write valid) {xs : List α} :
    ∀ {ys : List α} {rest rest' : List Char}, (∀ x ∈ xs, valid x) → (∀ y ∈ ys, valid y) →
      further write xs rest = further write ys rest' → xs = ys ∧ rest = rest' := by
  induction xs with
  | nil =>
      intro ys rest rest' _ _ h
      cases ys with
      | nil =>
          cases h
          exact ⟨rfl, rfl⟩
      | cons y ys => cases h
  | cons x xs ih =>
      intro ys rest rest' hxs hys h
      cases ys with
      | nil => cases h
      | cons y ys =>
          obtain ⟨hx, hxs⟩ := List.forall_mem_cons.1 hxs
          obtain ⟨hy, hys⟩ := List.forall_mem_cons.1 hys
          have helements :
              write x ++ further write xs rest = write y ++ further write ys rest' := by
            simpa [further] using h
          obtain ⟨c, cs, hc, hcs⟩ := further_eq_cons write xs rest
          obtain ⟨d, ds, hd, hds⟩ := further_eq_cons write ys rest'
          rw [hcs, hds] at helements
          obtain ⟨hfirst, hmore⟩ := hw.cancel hx hy hc hd helements
          rw [← hcs, ← hds] at hmore
          obtain ⟨hothers, hrest⟩ := ih hxs hys hmore
          exact ⟨by rw [hfirst, hothers], hrest⟩

/-- An array ends at its bracket. -/
theorem Delimited.array_cancel (hw : Delimited write valid) {xs ys : List α}
    {rest rest' : List Char} (hxs : ∀ x ∈ xs, valid x) (hys : ∀ y ∈ ys, valid y)
    (h : array (xs.map write) ++ rest = array (ys.map write) ++ rest') :
    xs = ys ∧ rest = rest' := by
  unfold array at h
  rw [List.cons_append, List.cons_append, List.append_assoc, List.append_assoc] at h
  have h := (List.cons.inj h).2
  rw [List.singleton_append, List.singleton_append] at h
  cases xs with
  | nil =>
      cases ys with
      | nil => exact ⟨rfl, (List.cons.inj h).2⟩
      | cons y ys =>
          rw [intercalate_further] at h
          exact absurd h.symm (hw.head (hys y List.mem_cons_self))
  | cons x xs =>
      cases ys with
      | nil =>
          rw [intercalate_further] at h
          exact absurd h (hw.head (hxs x List.mem_cons_self))
      | cons y ys =>
          rw [intercalate_further, intercalate_further] at h
          apply hw.further_cancel hxs hys
          simpa [further] using h

end Arrays

theorem isDigit_of_isEnd {c : Char} (h : isEnd c = true) : c.isDigit = false := by
  unfold isEnd at h
  rw [Bool.or_eq_true, beq_iff_eq, beq_iff_eq] at h
  rcases h with rfl | rfl <;> rfl

theorem delimited_octet :
    Delimited (fun octet : UInt8 => natural octet.toNat) fun _ => True where
  cancel := by
    intro x y c d rest rest' _ _ hc hd h
    obtain ⟨hoctet, hrest⟩ := natural_cancel (isDigit_of_isEnd hc) (isDigit_of_isEnd hd) h
    exact ⟨UInt8.toNat_inj.1 hoctet, hrest⟩
  head := by
    intro x rest rest' _
    exact natural_ne_cons rfl rest rest'

end Json

-- =========================================================== identifiers

namespace Uuid

/-- Identifiers are known by their texts. -/
theorem chars_inj {a b : Uuid} (h : a.chars = b.chars) : a = b := by
  have hread := ofChars?_chars a
  rw [h, ofChars?_chars] at hread
  exact (Option.some.inj hread).symm

end Uuid

-- ================================================================ values

namespace Value

def isFloat : Value → Bool
  | float _ => true
  | _ => false

theorem content_cancel {x y : Value} (hx : x.isFloat = false) (hkind : x.kind = y.kind)
    (hnull : x.isNull = false) {rest rest' : List Char}
    (h : x.jsonContent ++ '}' :: rest = y.jsonContent ++ '}' :: rest') :
    x = y ∧ rest = rest' := by
  cases x with
  | null => cases hnull
  | float => cases hx
  | bool b =>
      cases y with
      | bool b' =>
          have hword : b = b' := by
            have hfirst := congrArg List.head? h
            cases b <;> cases b' <;> first | rfl | exact absurd (Option.some.inj hfirst) (by decide)
          subst hword
          exact ⟨rfl, (List.cons.inj (List.append_cancel_left h)).2⟩
      | _ => simp [kind] at hkind
  | int32 n =>
      cases y with
      | int32 n' =>
          obtain ⟨hn, hrest⟩ := Json.integer_cancel rfl rfl h
          exact ⟨by rw [Int32.toInt_inj.1 hn], (List.cons.inj hrest).2⟩
      | _ => simp [kind] at hkind
  | int64 n =>
      cases y with
      | int64 n' =>
          obtain ⟨hn, hrest⟩ := Json.integer_cancel rfl rfl h
          exact ⟨by rw [Int64.toInt_inj.1 hn], (List.cons.inj hrest).2⟩
      | _ => simp [kind] at hkind
  | text s =>
      cases y with
      | text s' =>
          obtain ⟨hs, hrest⟩ := Json.quote_cancel h
          exact ⟨by rw [String.toList_inj.1 hs], (List.cons.inj hrest).2⟩
      | _ => simp [kind] at hkind
  | bytes octets =>
      cases y with
      | bytes octets' =>
          obtain ⟨hoctets, hrest⟩ := Json.delimited_octet.array_cancel (fun _ _ => trivial)
            (fun _ _ => trivial) h
          exact ⟨by rw [hoctets], (List.cons.inj hrest).2⟩
      | _ => simp [kind] at hkind
  | uuid id =>
      cases y with
      | uuid id' =>
          obtain ⟨hid, hrest⟩ := Json.quote_cancel h
          exact ⟨by rw [Uuid.chars_inj hid], (List.cons.inj hrest).2⟩
      | _ => simp [kind] at hkind

theorem jsonChars_append {x : Value} (h : x.isNull = false) (rest : List Char) :
    x.jsonChars ++ rest
      = '{' :: (Json.quote x.kind.toList ++ ':' :: (x.jsonContent ++ '}' :: rest)) := by
  simp [jsonChars, h]

/-- Values are known in front of what may follow them if those of one kind are
known by what they hold, in front of the brace that ends it. -/
theorem delimited_of_content {valid : Value → Prop}
    (hcontent : ∀ {x y : Value} {rest rest' : List Char}, valid x → valid y → x.kind = y.kind →
      x.isNull = false → x.jsonContent ++ '}' :: rest = y.jsonContent ++ '}' :: rest' →
      x = y ∧ rest = rest') :
    Json.Delimited jsonChars valid where
  cancel := by
    intro x y c d rest rest' hx hy _ _ h
    cases hnx : x.isNull with
    | true =>
        rw [eq_null_of_isNull hnx] at h ⊢
        cases hny : y.isNull with
        | true =>
            rw [eq_null_of_isNull hny] at h ⊢
            exact ⟨rfl, List.append_cancel_left h⟩
        | false =>
            rw [jsonChars_append hny] at h
            cases h
    | false =>
        rw [jsonChars_append hnx] at h
        cases hny : y.isNull with
        | true =>
            rw [eq_null_of_isNull hny] at h
            cases h
        | false =>
            rw [jsonChars_append hny] at h
            obtain ⟨hkind, h⟩ := Json.quote_cancel (List.cons.inj h).2
            exact hcontent hx hy (String.toList_inj.1 hkind) hnx (List.cons.inj h).2
  head := by
    intro x rest rest' _ h
    cases hnx : x.isNull with
    | true =>
        rw [eq_null_of_isNull hnx] at h
        cases h
    | false =>
        rw [jsonChars_append hnx] at h
        cases h

theorem delimited_jsonChars : Json.Delimited jsonChars fun x => x.isFloat = false :=
  delimited_of_content fun hx _ hkind hnull h => content_cancel hx hkind hnull h

/-- Keys of valid values are known by their texts. -/
theorem keyText_cancel {valid : Value → Prop} (hvalid : Json.Delimited jsonChars valid)
    {xs ys : List Value} (hxs : ∀ x ∈ xs, valid x) (hys : ∀ y ∈ ys, valid y)
    (h : keyText xs = keyText ys) : xs = ys := by
  have h := congrArg String.toList h
  unfold keyText at h
  rw [String.toList_ofList, String.toList_ofList, ← List.append_nil (Json.array _),
    ← List.append_nil (Json.array (ys.map jsonChars))] at h
  exact (hvalid.array_cancel hxs hys h).1

/-- Keys without floating-point numbers are known by their texts. -/
theorem keyText_inj {xs ys : List Value} (hxs : ∀ x ∈ xs, x.isFloat = false)
    (hys : ∀ y ∈ ys, y.isFloat = false) (h : keyText xs = keyText ys) : xs = ys :=
  keyText_cancel delimited_jsonChars hxs hys h

/-- Keys without floating-point numbers are equal only if they are the
same. -/
theorem equalAll_iff {xs : List Value} :
    ∀ {ys : List Value}, (∀ x ∈ xs, x.isFloat = false) → (equalAll xs ys = true ↔ xs = ys) := by
  induction xs with
  | nil =>
      intro ys _
      cases ys <;> simp [equalAll]
  | cons x xs ih =>
      intro ys h
      obtain ⟨hx, hxs⟩ := List.forall_mem_cons.1 h
      cases ys with
      | nil => simp [equalAll]
      | cons y ys =>
          have hequal : x.equal y = (x == y) := by
            cases x with
            | float => cases hx
            | _ => rfl
          rw [equalAll, Bool.and_eq_true, hequal, beq_iff_eq, ih hxs, List.cons.injEq]

end Value

end RecordQuery
