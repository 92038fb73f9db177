/-
Errors in the context of notes. A note stands in front of the chain of an
error and is nothing but a text: it is never the root, it carries no code,
and it is neither a compile error nor an argument error. So the root, and
the first fault of any other kind, are what they were before, however many
notes are added.

Two questions look at the latest context alone and not down the chain:
whether an error came from the pool, and whether a value could not be
converted. One note is enough to answer them with no.
-/
import RecordQuery.Dialect.Flavor
import RecordQuery.Running.Pool

namespace RecordQuery

namespace Error

variable {α : Type} {e : Error} {notes : List (String × Bool)}

/-- An error in the context of notes, added one after the other. Each is a
text, and whether the note is still held elsewhere when it is added. -/
def inNotes (e : Error) (notes : List (String × Bool)) : Error :=
  notes.foldl (fun e (text, held) => e.context (Fault.note text) held) e

-- ============================================================== chains

/-- A note is added as its text, whether it is still held or not. -/
theorem context_note (e : Error) (text : String) (held : Bool) :
    e.context (Fault.note text) held = e.noted text := by
  cases held <;> rfl

/-- Notes stand before the contexts there are, the latest first. -/
theorem inNotes_eq (e : Error) (notes : List (String × Bool)) :
    e.inNotes notes
      = ⟨(notes.reverse.map fun note => .note note.1) ++ e.contexts, e.root⟩ := by
  induction notes generalizing e with
  | nil => rfl
  | cons note rest ih =>
      have hstep : e.inNotes (note :: rest) = (e.noted note.1).inNotes rest := by
        rw [← context_note e note.1 note.2]
        rfl
      rw [hstep, ih, List.reverse_cons, List.map_append, List.append_assoc]
      rfl

theorem chain_inNotes (e : Error) (notes : List (String × Bool)) :
    (e.inNotes notes).chain = (notes.reverse.map fun note => .note note.1) ++ e.chain := by
  rw [inNotes_eq, chain, chain, List.append_assoc]

/-- What is not looked for in notes is found where it was. -/
theorem findSome?_inNotes {f : Fault → Option α} (hf : ∀ text, f (.note text) = none) :
    (e.inNotes notes).chain.findSome? f = e.chain.findSome? f := by
  have hnone : (notes.reverse.map fun note => Fault.note note.1).findSome? f = none := by
    rw [List.findSome?_eq_none_iff]
    intro fault hfault
    obtain ⟨note, -, rfl⟩ := List.mem_map.1 hfault
    exact hf note.1
  rw [chain_inNotes, List.findSome?_append, hnone, Option.none_or]

theorem any_inNotes {p : Fault → Bool} (hp : ∀ text, p (.note text) = false) :
    (e.inNotes notes).chain.any p = e.chain.any p := by
  have hnone : (notes.reverse.map fun note => Fault.note note.1).any p = false := by
    rw [List.any_eq_false]
    intro fault hfault
    obtain ⟨note, -, rfl⟩ := List.mem_map.1 hfault
    rw [hp]
    exact Bool.false_ne_true
  rw [chain_inNotes, List.any_append, hnone, Bool.false_or]

/-- The latest of several notes is the outermost fault. -/
theorem outermost_inNotes (e : Error) (notes : List (String × Bool)) :
    (notes = [] ∧ e.inNotes notes = e)
      ∨ notes ≠ [] ∧ ∃ text, (e.inNotes notes).outermost = .note text := by
  rcases List.eq_nil_or_concat notes with rfl | ⟨before, last, rfl⟩
  · exact Or.inl ⟨rfl, rfl⟩
  · rw [List.concat_eq_append]
    refine Or.inr ⟨List.append_ne_nil_of_right_ne_nil _ (List.cons_ne_nil _ _), last.1, ?_⟩
    rw [inNotes_eq, List.reverse_append]
    rfl

/-- The texts of notes stand before that of the error, the latest first. -/
theorem message_inNotes (e : Error) (notes : List (String × Bool)) :
    (e.inNotes notes).message
      = ": ".intercalate (notes.reverse.map Prod.fst ++ [e.message]) := by
  have hchain : ∀ texts : List String,
      ": ".intercalate (texts ++ e.chain.map Fault.message)
        = ": ".intercalate (texts ++ [e.message]) := by
    intro texts
    induction texts with
    | nil =>
        rw [List.nil_append, List.nil_append, String.intercalate_singleton]
        rfl
    | cons text rest ih =>
        have hne : e.chain.map Fault.message ≠ [] := by
          rw [chain, List.map_append]
          exact List.append_ne_nil_of_right_ne_nil _ (List.cons_ne_nil _ _)
        rw [List.cons_append, List.cons_append,
          String.intercalate_cons_of_ne_nil (List.append_ne_nil_of_right_ne_nil _ hne),
          String.intercalate_cons_of_ne_nil
            (List.append_ne_nil_of_right_ne_nil _ (List.cons_ne_nil _ _)), ih]
  rw [message, chain_inNotes, List.map_append, List.map_map]
  exact hchain (notes.reverse.map Prod.fst)

-- =========================================================== questions

/-- An error tells of what went wrong what another one tells. -/
structure TellsAs (e e' : Error) : Prop where
  root : e.root = e'.root
  driverCode : e.driverCode? = e'.driverCode?
  compileError : e.compileError? = e'.compileError?
  argumentError : e.argumentError? = e'.argumentError?
  conflict : ∀ flavor : Flavor, flavor.dialect.isConflict e = flavor.dialect.isConflict e'
  cancelled : e.isCancelled = e'.isCancelled
  deadlineExceeded : e.isDeadlineExceeded = e'.isDeadlineExceeded
  isCompileError : e.isCompileError = e'.isCompileError
  noMapping : e.isNoMapping = e'.isNoMapping
  driverFailure : e.isDriverFailure = e'.isDriverFailure

/-- Notes hide neither the root of an error nor what is found down its
chain, and its text goes on behind theirs. Whether it came from the pool or
from a conversion is only told as long as there is no note. -/
theorem inNotes_tellsAs (e : Error) (notes : List (String × Bool)) :
    (e.inNotes notes).TellsAs e
      ∧ (e.inNotes notes).message
        = ": ".intercalate (notes.reverse.map Prod.fst ++ [e.message])
      ∧ (e.inNotes notes).isConnectionPool = (notes.isEmpty && e.isConnectionPool)
      ∧ (e.inNotes notes).isConversion = (notes.isEmpty && e.isConversion) := by
  have hroot : (e.inNotes notes).root = e.root := by rw [inNotes_eq]
  have hcode : (e.inNotes notes).driverCode? = e.driverCode? := findSome?_inNotes fun _ => rfl
  have hcompile : (e.inNotes notes).compileError? = e.compileError? :=
    findSome?_inNotes fun _ => rfl
  have hargument : (e.inNotes notes).argumentError? = e.argumentError? :=
    findSome?_inNotes fun _ => rfl
  refine ⟨?_, message_inNotes e notes, ?_⟩
  · exact {
      root := hroot
      driverCode := hcode
      compileError := hcompile
      argumentError := hargument
      conflict := fun flavor => congrArg (Option.any flavor.conflictCodes.contains) hcode
      cancelled := by rw [isCancelled, isCancelled, hroot]
      deadlineExceeded := by rw [isDeadlineExceeded, isDeadlineExceeded, hroot]
      isCompileError := congrArg Option.isSome hcompile
      noMapping := by rw [isNoMapping, isNoMapping, hargument]
      driverFailure := any_inNotes fun _ => rfl }
  · rcases outermost_inNotes e notes with ⟨rfl, hsame⟩ | ⟨hne, text, houtermost⟩
    · rw [hsame]
      exact ⟨rfl, rfl⟩
    · have hempty : notes.isEmpty = false := by simpa using hne
      rw [hempty, isConnectionPool, isConversion, houtermost]
      exact ⟨rfl, rfl⟩

/-- A request that found the pool exhausted, and a row with a value that
could not be converted, are no longer told as such once it is noted what
was being done. -/
theorem notes_hide_origin :
    (ofFault Pool.busy).isConnectionPool = true
      ∧ ((ofFault Pool.busy).inNotes [("find", false)]).isConnectionPool = false
      ∧ (ofFault (.conversion ⟨.text "x", "i64"⟩)).isConversion = true
      ∧ ((ofFault (.conversion ⟨.text "x", "i64"⟩)).inNotes
          [("row 0", false), ("find", false)]).isConversion = false :=
  ⟨rfl, rfl, rfl, rfl⟩

end Error

end RecordQuery
