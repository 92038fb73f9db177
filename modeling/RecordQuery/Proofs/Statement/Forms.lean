/-
The forms of elements. The methods are written in four forms: a call
around an argument, a search between two, a test behind one, and the end
that a text is to have behind the text. A dialect has its own words for
them; of the words that may stand in one place, none begins with another,
which is checked once here and used by name where texts are compared.

Elements that are compiled are those of these forms, `Element.Formed`, and
what is proved of elements goes by the forms.
-/
import RecordQuery.Proofs.Path.Compiled
import RecordQuery.Proofs.Statement.Delimited

namespace RecordQuery

open Writing

-- =============================================================== forms

namespace Flavor

/-- The methods written as a call of one argument. -/
def calls : List String :=
  ["lower", "upper", "length"]

/-- The methods written as a search for the second argument in the
first. -/
def searches : List String :=
  ["contains", "starts_with"]

/-- The methods written behind their argument as a test of it. -/
def tests : List String :=
  ["is_null", "is_not_null"]

/-- What a call or a search begins with. -/
def opening (flavor : Flavor) : String → String
  | "lower" => "LOWER("
  | "upper" => "UPPER("
  | "length" => if flavor = sqlite then "LENGTH(" else "CHAR_LENGTH("
  | _ => if flavor = postgresql then "STRPOS(" else "INSTR("

/-- What a search ends with. -/
def searchEnd : String → String
  | "contains" => ") > 0"
  | _ => ") = 1"

/-- What a test adds behind its argument. -/
def testText : String → String
  | "is_null" => " IS NULL"
  | _ => " IS NOT NULL"

/-- What stands in front of the end looked for. -/
def likeText (flavor : Flavor) : String :=
  if flavor = mysql then " LIKE CONCAT('%', " else " LIKE '%' || "

/-- What closes the end looked for. -/
def likeEnd (flavor : Flavor) : String :=
  if flavor = mysql then ")" else ""

section Written

variable {flavor : Flavor} {scope : Scope} {name : String} {arg text part : Element}

theorem written_call (hname : name ∈ calls) :
    (Element.method name [arg]).written flavor.dialect scope
      = ofText (flavor.opening name) ++ (arg.written flavor.dialect scope ++ ofText ")") := by
  simp only [calls, List.mem_cons, List.not_mem_nil, or_false] at hname
  rcases hname with rfl | rfl | rfl <;> cases flavor <;> rfl

theorem written_search (hname : name ∈ searches) :
    (Element.method name [text, part]).written flavor.dialect scope
      = ofText (flavor.opening name) ++ (text.written flavor.dialect scope ++ (ofText ", "
        ++ (part.written flavor.dialect scope ++ ofText (searchEnd name)))) := by
  simp only [searches, List.mem_cons, List.not_mem_nil, or_false] at hname
  rcases hname with rfl | rfl <;> cases flavor <;> rfl

theorem written_test (hname : name ∈ tests) :
    (Element.method name [arg]).written flavor.dialect scope
      = arg.written flavor.dialect scope ++ ofText (testText name) := by
  simp only [tests, List.mem_cons, List.not_mem_nil, or_false] at hname
  rcases hname with rfl | rfl <;> cases flavor <;> rfl

theorem written_like :
    (Element.method "ends_with" [text, part]).written flavor.dialect scope
      = text.written flavor.dialect scope ++ (ofText flavor.likeText
        ++ (part.written flavor.dialect scope ++ ofText flavor.likeEnd)) := by
  cases flavor <;> rfl

end Written

-- =============================================================== words

variable {flavor : Flavor}

/-- What an operand begins with, unless it is a literal. -/
def openings (flavor : Flavor) : List String :=
  String.singleton flavor.quoteMark :: (calls ++ searches).map flavor.opening

/-- What a suffix begins with. -/
def suffixTexts (flavor : Flavor) : List String :=
  flavor.likeText :: tests.map testText

theorem openings_free (flavor : Flavor) : PrefixFree flavor.openings := by
  cases flavor <;> decide

theorem openings_nonempty : "" ∉ flavor.openings := by
  cases flavor <;> decide

theorem suffixTexts_free (flavor : Flavor) : PrefixFree flavor.suffixTexts := by
  cases flavor <;> decide

theorem searchEnds_free : PrefixFree (searches.map searchEnd) := by
  decide

theorem opening_inj : ∀ a ∈ calls, ∀ b ∈ calls, flavor.opening a = flavor.opening b → a = b := by
  cases flavor <;> decide

theorem opening_ne : ∀ a ∈ calls, ∀ b ∈ searches, flavor.opening a ≠ flavor.opening b := by
  cases flavor <;> decide

theorem opening_ne_mark :
    ∀ a ∈ calls ++ searches, flavor.opening a ≠ String.singleton flavor.quoteMark := by
  cases flavor <;> decide

theorem searchEnd_inj : ∀ a ∈ searches, ∀ b ∈ searches, searchEnd a = searchEnd b → a = b := by
  decide

theorem testText_inj : ∀ a ∈ tests, ∀ b ∈ tests, testText a = testText b → a = b := by
  decide

theorem testText_ne : ∀ a ∈ tests, testText a ≠ flavor.likeText := by
  cases flavor <;> decide

end Flavor

-- ============================================================ elements

namespace Element

/-- Whether an element is an operand: not written behind its first
argument. -/
def isOperand : Element → Bool
  | .method name _ => !("ends_with" :: Flavor.tests).contains name
  | _ => true

theorem isOperand_of_mem {name : String} (h : name ∈ Flavor.calls ++ Flavor.searches)
    (args : List Element) : (Element.method name args).isOperand := by
  have hall : ∀ name ∈ Flavor.calls ++ Flavor.searches,
      !("ends_with" :: Flavor.tests).contains name := by decide
  exact hall name h

theorem not_isOperand_of_mem {name : String} (h : name ∈ Flavor.tests) (args : List Element) :
    (Element.method name args).isOperand = false := by
  have hall : ∀ name ∈ Flavor.tests, (!("ends_with" :: Flavor.tests).contains name) = false := by
    decide
  exact hall name h

mutual

/-- Whether every end looked for in an element is an operand. -/
def Grouped : Element → Prop
  | .method name args => (name = "ends_with" → args.tail.all isOperand) ∧ GroupedEach args
  | _ => True
termination_by structural element => element

/-- Whether this is so in each of some elements. -/
def GroupedEach : List Element → Prop
  | [] => True
  | element :: rest => element.Grouped ∧ GroupedEach rest
termination_by structural elements => elements

end

/-- Elements of some fields, whose methods are called as declared. An end
that is looked for is closed by the dialect, or an operand. -/
inductive Formed (flavor : Flavor) (fields : List String) : Element → Prop
  | value (v : Value) : Formed flavor fields (.value v)
  | field {path : String} (hpath : path ∈ fields) : Formed flavor fields (.field path)
  | call {name : String} {arg : Element} (hname : name ∈ Flavor.calls)
      (harg : Formed flavor fields arg) : Formed flavor fields (.method name [arg])
  | search {name : String} {text part : Element} (hname : name ∈ Flavor.searches)
      (htext : Formed flavor fields text) (hpart : Formed flavor fields part) :
      Formed flavor fields (.method name [text, part])
  | test {name : String} {arg : Element} (hname : name ∈ Flavor.tests)
      (harg : Formed flavor fields arg) : Formed flavor fields (.method name [arg])
  | like {text part : Element} (htext : Formed flavor fields text)
      (hpart : Formed flavor fields part) (hclosed : flavor = .mysql ∨ part.isOperand) :
      Formed flavor fields (.method "ends_with" [text, part])

end Element

/-- A method that is called as declared is of a known form, with as many
arguments. -/
theorem Signature.cases_of_check {name : String} {args : List Element} {s : Signature}
    (h : Signature.check name args = .ok s) :
    (∃ arg, args = [arg] ∧ (name ∈ Flavor.calls ∨ name ∈ Flavor.tests))
      ∨ ∃ text part, args = [text, part] ∧ (name ∈ Flavor.searches ∨ name = "ends_with") := by
  obtain ⟨hmem, rfl, hlength⟩ := Signature.of_check h
  have hall : ∀ s ∈ Signature.all,
      (s.args.length = 1 ∧ (s.name ∈ Flavor.calls ∨ s.name ∈ Flavor.tests))
        ∨ s.args.length = 2 ∧ (s.name ∈ Flavor.searches ∨ s.name = "ends_with") := by
    decide
  rcases hall s hmem with ⟨hone, hname⟩ | ⟨htwo, hname⟩
  · obtain ⟨arg, rfl⟩ := List.length_eq_one_iff.1 (hlength.trans hone)
    exact Or.inl ⟨arg, rfl, hname⟩
  · obtain ⟨text, part, rfl⟩ := List.length_eq_two.1 (hlength.trans htwo)
    exact Or.inr ⟨text, part, rfl, hname⟩

variable {flavor : Flavor} {scope : Scope} {fields : List String}

mutual

/-- What is compiled is formed. -/
theorem Element.formed_of_compile : ∀ {element : Element} {f : Fragment},
    element.compile flavor.dialect scope = .ok f → (flavor = .mysql ∨ element.Grouped) →
    element.fields ⊆ fields → element.Formed flavor fields
  | .value v, f, _, _, _ => .value v
  | .field path, f, _, _, hfields => .field (hfields List.mem_cons_self)
  | .method name args, f, h, hgrouped, hfields => by
      obtain ⟨template, hform, h⟩ := bind_eq_ok.1 h
      obtain ⟨compiled, hargs, -⟩ := bind_eq_ok.1 h
      obtain ⟨s, hs, -⟩ := bind_eq_ok.1 hform
      have hformed := Element.formed_of_compileArgs hargs (hgrouped.imp_right And.right) hfields
      rcases Signature.cases_of_check hs with ⟨arg, rfl, hname⟩ | ⟨text, part, rfl, hname⟩
      · have harg := hformed arg List.mem_cons_self
        rcases hname with hname | hname
        · exact .call hname harg
        · exact .test hname harg
      · have htext := hformed text List.mem_cons_self
        have hpart := hformed part (List.mem_cons_of_mem _ List.mem_cons_self)
        rcases hname with hname | rfl
        · exact .search hname htext hpart
        · refine .like htext hpart (hgrouped.imp_right fun hgrouped => ?_)
          have hoperands := hgrouped.1 rfl
          rwa [List.tail_cons, List.all_cons, List.all_nil, Bool.and_true] at hoperands
termination_by structural element => element

theorem Element.formed_of_compileArgs : ∀ {args : List Element} {sofar done : Arguments},
    Element.compileArgs flavor.dialect scope sofar args = .ok done →
    (flavor = .mysql ∨ Element.GroupedEach args) →
    Element.collectEach (fun _ => []) (fun path => [path]) args ⊆ fields →
    ∀ arg ∈ args, arg.Formed flavor fields
  | [], sofar, done, _, _, _ => fun arg harg => absurd harg List.not_mem_nil
  | arg :: rest, sofar, done, h, hgrouped, hfields => by
      obtain ⟨f, hf, h⟩ := bind_eq_ok.1 h
      obtain ⟨more, -, h⟩ := bind_eq_ok.1 h
      obtain ⟨hhead, hrest⟩ := List.append_subset.1 hfields
      exact List.forall_mem_cons.2
        ⟨Element.formed_of_compile hf (hgrouped.imp_right And.left) hhead,
          Element.formed_of_compileArgs h (hgrouped.imp_right And.right) hrest⟩
termination_by structural args => args

end

end RecordQuery
