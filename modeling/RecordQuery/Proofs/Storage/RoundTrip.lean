/-
What is stored is read back. A database may keep a value without its kind:
a truth value as an integer, an integer in a wider one, an identifier as
its text. A field is loaded with the type of its column, and that undoes
it, whatever the field holds.

SQLite keeps texts and octets apart, so every field reads back. MySQL does
not, and octets that happen to be a text are read as the text; a field of
octets cannot be loaded from it.
-/
import RecordQuery.Storage.Mysql
import RecordQuery.Storage.Sqlite

namespace RecordQuery

-- ======================================================= types of fields

namespace ColumnType

/-- Whether a field of the type may be without content. -/
def isOptional : ColumnType → Bool
  | optional _ => true
  | _ => false

/-- Whether columns are mapped with the type. Nothing tells apart two ways
of being without content, so that a type has one at most. -/
def isMapped : ColumnType → Bool
  | optional base => !base.isOptional
  | _ => true

theorem load_of_load? {t : ColumnType} {v : Value} {x : t.Carrier} (h : t.load? v = some x) :
    t.load v = .ok x := by
  rw [load, h]

theorem load_of_load?_none {t : ColumnType} {v : Value} (h : t.load? v = none) :
    t.load v = .error ⟨v, t.name⟩ := by
  rw [load, h]

/-- What is not null is loaded as content. -/
theorem load?_optional {v : Value} (hnull : v.isNull = false) (base : ColumnType) :
    (optional base).load? v = (base.load? v).map some := by
  rw [load?, hnull, if_neg Bool.false_ne_true]

/-- An integer that was widened is narrowed again. -/
theorem load?_int32_widened (n : Int32) :
    int32.load? (.int64 (Int64.ofInt n.toInt)) = some n := by
  have hlow := n.le_toInt
  have hhigh := n.toInt_lt
  have hwide : (Int64.ofInt n.toInt).toInt = n.toInt :=
    Int64.toInt_ofInt_of_le (by omega) (by omega)
  show (if Int32.minValue.toInt ≤ (Int64.ofInt n.toInt).toInt
      ∧ (Int64.ofInt n.toInt).toInt ≤ Int32.maxValue.toInt then
    some (Int32.ofInt (Int64.ofInt n.toInt).toInt) else none) = some n
  rw [hwide, if_pos ⟨n.minValue_le_toInt, n.toInt_le⟩, Int32.ofInt_toInt]

end ColumnType

-- ========================================================= kept by kind

namespace Value

/-- What a value is kept as where truth values and identifiers have no kind
of their own and integers have one width. -/
def widened : Value → Value
  | bool b => int64 (if b then 1 else 0)
  | int32 n => int64 (Int64.ofInt n.toInt)
  | uuid id => text id.text
  | v => v

/-- Whether a value is octets that are a text. -/
def isTextOctets : Value → Bool
  | bytes octets => (Utf8.decode? octets).isSome
  | _ => false

/-- What a value is read as where octets are not told from texts. -/
def asText : Value → Value
  | bytes octets =>
    match Utf8.decode? octets with
    | some s => text s
    | none => bytes octets
  | v => v

theorem asText_of_not_textOctets {v : Value} (h : v.isTextOctets = false) : v.asText = v := by
  cases v with
  | bytes octets =>
      have hnone : Utf8.decode? octets = none := by simpa [isTextOctets] using h
      rw [asText, hnone]
  | _ => rfl

theorem widened_of_textOctets {v : Value} (h : v.isTextOctets = true) :
    v.widened = v ∧ ∃ s, v.asText = text s := by
  cases v with
  | bytes octets =>
      obtain ⟨s, hs⟩ := Option.isSome_iff_exists.1 h
      exact ⟨rfl, s, by rw [asText, hs]⟩
  | _ => cases h

theorem isTextOctets_widened (v : Value) : v.widened.isTextOctets = v.isTextOctets := by
  cases v <;> rfl

end Value

namespace ColumnType

/-- A field that always has content is loaded from what it is kept as. -/
theorem load?_widened {t : ColumnType} (ht : t.isOptional = false) (x : t.Carrier) :
    (t.store x).widened.isNull = false ∧ t.load? (t.store x).widened = some x := by
  cases t with
  | bool => cases x <;> exact ⟨rfl, rfl⟩
  | int32 => exact ⟨rfl, load?_int32_widened x⟩
  | uuid => exact ⟨rfl, Uuid.parse?_text x⟩
  | optional base => cases ht
  | _ => exact ⟨rfl, rfl⟩

/-- A field is loaded from what its content is kept as. -/
theorem load_widened {t : ColumnType} (ht : t.isMapped = true) (x : t.Carrier) :
    t.load (t.store x).widened = .ok x := by
  apply load_of_load?
  cases t with
  | optional base =>
      cases x with
      | none => rfl
      | some x =>
          have hbase : base.isOptional = false := by simpa [isMapped] using ht
          obtain ⟨hnull, hload⟩ := load?_widened hbase x
          rw [store, load?_optional hnull, hload, Option.map_some]
  | _ => exact (load?_widened rfl x).2

/-- A field whose content is octets is not loaded from a text. -/
theorem load?_text {t : ColumnType} {x : t.Carrier} (h : (t.store x).isTextOctets = true)
    (s : String) : t.load? (.text s) = none := by
  induction t with
  | bytes => rfl
  | optional base ih =>
      cases x with
      | none => cases h
      | some x =>
          have hbase : base.load? (.text s) = none := ih h
          rw [load?_optional rfl, hbase, Option.map_none]
  | _ => cases h

end ColumnType

-- ================================================================ SQLite

namespace SqliteValue

/-- Texts and octets are read as what they were. -/
theorem read_bind (v : Value) : read (bind v) = .ok v.widened := by
  have htext : ∀ s, read (text (Utf8.encode s)) = .ok (.text s) := by
    intro s
    rw [read, Utf8.decode, Utf8.decode?_encode]
  cases v with
  | text s => exact htext s
  | uuid id => exact htext id.text
  | _ => rfl

/-- Every field reads back from SQLite: what its content is bound as is read,
and loaded as the same content, a floating-point number bit by bit. -/
theorem load_read_bind (t : ColumnType) (ht : t.isMapped = true) (x : t.Carrier) :
    ∃ v, read (bind (t.store x)) = .ok v ∧ t.load v = .ok x :=
  ⟨_, read_bind _, ColumnType.load_widened ht x⟩

/-- An identifier that may be absent, which is kept as its text, and a number
that is none, with bits of its own. -/
theorem load_read_bind_optional :
    (ColumnType.isMapped (.optional .uuid) = true
      ∧ ∃ v, read (bind (ColumnType.store (.optional .uuid) (some Uuid.nil))) = .ok v
        ∧ ColumnType.load (.optional .uuid) v = .ok (some Uuid.nil))
    ∧ ColumnType.isMapped (.optional .float) = true
      ∧ ∃ v, read (bind (ColumnType.store (.optional .float) (some ⟨0xFFF8000000000001⟩))) = .ok v
        ∧ ColumnType.load (.optional .float) v = .ok (some ⟨0xFFF8000000000001⟩) :=
  ⟨⟨rfl, load_read_bind (.optional .uuid) rfl (some Uuid.nil)⟩,
    rfl, load_read_bind (.optional .float) rfl (some ⟨0xFFF8000000000001⟩)⟩

end SqliteValue

-- ================================================================= MySQL

namespace MysqlValue

/-- Octets are read as the text that they are, if they are one. -/
theorem read_bind (v : Value) : read (bind v) = .ok v.widened.asText := by
  have htext : ∀ s, read (bytes (Utf8.encode s)) = .ok (.text s) := by
    intro s
    rw [read, Utf8.decode?_encode]
  cases v with
  | text s => exact htext s
  | uuid id => exact htext id.text
  | bytes octets =>
      show read (bytes octets) = .ok (Value.bytes octets).asText
      rw [read, Value.asText]
      cases Utf8.decode? octets <;> rfl
  | _ => rfl

/-- Every field reads back from MySQL but octets that are a text. These are
read as the text, and a field of octets is not loaded from it. -/
theorem load_read_bind_eq (t : ColumnType) (ht : t.isMapped = true) (x : t.Carrier) :
    ∃ v, read (bind (t.store x)) = .ok v
      ∧ t.load v = if (t.store x).isTextOctets then .error ⟨v, t.name⟩ else .ok x := by
  refine ⟨_, read_bind _, ?_⟩
  split
  · next htext =>
    obtain ⟨hsame, s, hs⟩ := Value.widened_of_textOctets htext
    rw [hsame, hs, ColumnType.load_of_load?_none (ColumnType.load?_text htext s)]
  · next htext =>
    have hother := eq_false_of_ne_true htext
    rw [← Value.isTextOctets_widened] at hother
    rw [Value.asText_of_not_textOctets hother, ColumnType.load_widened ht]

/-- Two octets that are no text are loaded, though the first of them might
begin one; two that are one are not. -/
theorem load_read_bind_neighbours :
    ColumnType.isMapped (.optional .bytes) = true
    ∧ (∃ v, read (bind (ColumnType.store (.optional .bytes) (some [0xC3, 0x28]))) = .ok v
      ∧ ColumnType.load (.optional .bytes) v = .ok (some [0xC3, 0x28]))
    ∧ ∃ v, read (bind (ColumnType.store (.optional .bytes) (some [0xC3, 0xA9]))) = .ok v
      ∧ ColumnType.load (.optional .bytes) v = .error ⟨v, "Vec<u8>"⟩ :=
  ⟨rfl, load_read_bind_eq (.optional .bytes) rfl (some [0xC3, 0x28]),
    load_read_bind_eq (.optional .bytes) rfl (some [0xC3, 0xA9])⟩

/-- Not every field reads back: one octet is the letter that it spells. -/
theorem read_octets_as_text :
    ¬ ∀ (t : ColumnType), t.isMapped = true → ∀ x : t.Carrier,
      ∃ v, read (bind (t.store x)) = .ok v ∧ t.load v = .ok x := by
  intro hall
  obtain ⟨v, hread, hload⟩ := hall .bytes rfl [0x41]
  have hletter : (ColumnType.store .bytes [0x41]).widened.asText = .text "A" := by decide
  rw [read_bind, hletter] at hread
  cases hread
  cases hload

end MysqlValue

end RecordQuery
