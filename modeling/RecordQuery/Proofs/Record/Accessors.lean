/-
What an accessor leaves of the records lent to it when it fails. The
accessors of a mapping are functions from records to records; here each is
taken apart into the steps it makes on records it is lent: it converts a
value, asks whether a record is of its model, and puts a record back.

A call that puts back at its very end leaves everything as it was if it
fails: what stands before the end only looks. Setting a column and
attaching a record are such calls, whichever of their two checks comes
first. A move is not. It puts the emptied source back and asks for the
target after that, so a target of another model finds the source without
what its field held, and no record has it any more.
-/
import RecordQuery.Proofs.Layout.Slots
import RecordQuery.Record

namespace RecordQuery

theorem Record.setRelated_eq_self_iff {r : Record} {field : String} {records : List Record} :
    r.setRelated field records = r ↔ r.related.lookup field = some records := by
  rw [← Entries.put_eq_self_iff]
  unfold setRelated
  cases r
  simp

-- ================================================================= calls

/-- The records lent to a call: the one it changes, and the one it takes
from. -/
structure Lent where
  target : Record
  source : Record

/-- What is left where the target alone may change, and only if nothing
fails. -/
def Lent.changed (lent : Lent) : Except Fault Record → Except Fault Unit × Lent
  | .ok record => (.ok (), { lent with target := record })
  | .error e => (.error e, lent)

/-- What a move leaves, its outcome first. -/
def Mapping.Transfer.left (t : Mapping.Transfer) : Except Fault Unit × Lent :=
  (t.result, ⟨t.target, t.source⟩)

theorem Lent.with_source_eq_iff {lent : Lent} {source : Record} :
    { lent with source := source } = lent ↔ source = lent.source := by
  cases lent
  simp

/-- Steps on lent records, up to the first fault. -/
abbrev Call (α : Type) : Type :=
  ExceptT Fault (StateM Lent) α

namespace Call

variable {α β : Type} {lent : Lent}

/-- What a call gives, and the records as it leaves them. -/
def outcome (call : Call α) (lent : Lent) : Except Fault α × Lent :=
  call.run.run lent

/-- Goes on with what is given, or stops with its fault. -/
def attempt (given : Except Fault α) : Call α :=
  ExceptT.mk (pure given)

/-- The target, if it is of the model. -/
def target (model : String) : Call Record := do
  attempt (((← get).target.asModel model).mapError .argument)

/-- The source, if it is of the model. -/
def source (model : String) : Call Record := do
  attempt (((← get).source.asModel model).mapError .argument)

def putTarget (r : Record) : Call Unit :=
  modify fun lent => { lent with target := r }

def putSource (r : Record) : Call Unit :=
  modify fun lent => { lent with source := r }

@[simp] theorem outcome_attempt (given : Except Fault α) :
    (attempt given).outcome lent = (given, lent) :=
  rfl

@[simp] theorem outcome_target (model : String) :
    (target model).outcome lent
      = ((lent.target.asModel model).mapError .argument, lent) :=
  rfl

@[simp] theorem outcome_source (model : String) :
    (source model).outcome lent
      = ((lent.source.asModel model).mapError .argument, lent) :=
  rfl

@[simp] theorem outcome_putTarget (r : Record) :
    (putTarget r).outcome lent = (.ok (), { lent with target := r }) :=
  rfl

@[simp] theorem outcome_putSource (r : Record) :
    (putSource r).outcome lent = (.ok (), { lent with source := r }) :=
  rfl

/-- A call goes on from the records that its first step leaves, unless that
step failed. -/
theorem outcome_bind (first : Call α) (next : α → Call β) :
    (first >>= next).outcome lent
      = match first.outcome lent with
        | (.ok a, left) => (next a).outcome left
        | (.error e, left) => (.error e, left) := by
  unfold outcome ExceptT.run StateT.run
  simp only [bind, ExceptT.bind, ExceptT.mk, StateT.bind, ExceptT.bindCont]
  cases first lent with
  | mk given left =>
    cases given with
    | ok a => rfl
    | error e => rfl

-- ============================================================== clean calls

/-- The call changes no record. -/
def Looks (call : Call α) : Prop :=
  ∀ lent, (call.outcome lent).2 = lent

/-- The call changes no record if it fails. -/
def FailsClean (call : Call α) : Prop :=
  ∀ lent e left, call.outcome lent = (.error e, left) → left = lent

theorem Looks.attempt (given : Except Fault α) : Looks (attempt given) :=
  fun _ => rfl

theorem Looks.target (model : String) : Looks (target model) :=
  fun _ => rfl

theorem FailsClean.putTarget (r : Record) : FailsClean (putTarget r) := by
  intro lent e left h
  rw [outcome_putTarget] at h
  cases h

/-- Steps that only look may stand before a call that fails clean. -/
theorem FailsClean.behind {first : Call α} {next : α → Call β} (hfirst : Looks first)
    (hnext : ∀ a, FailsClean (next a)) : FailsClean (first >>= next) := by
  intro lent e left h
  have hlooks := hfirst lent
  rw [outcome_bind] at h
  cases hrun : first.outcome lent with
  | mk given after =>
    rw [hrun] at h hlooks
    cases given with
    | ok a =>
      rw [← hlooks]
      exact hnext a after e left h
    | error e' =>
      cases h
      exact hlooks

end Call

-- ============================================================= accessors

namespace Mapping

open Call

variable (m : Mapping) (c : Column) (relation : Relation)

/-- Setting a column, step by step: the value is converted before the
record is looked at. -/
def setting (v : Value) : Call Unit := do
  let stored ← attempt ((c.type.normalize v).mapError .conversion)
  let record ← target m.model
  putTarget (record.setValue c.field stored)

/-- Attaching a record, step by step: a to-one field asks for the child
first, a to-many field for the parent. -/
def attaching (child : Record) : Call Unit :=
  match relation.kind with
  | .one => do
    let child ← attempt ((child.asModel relation.target).mapError .argument)
    let parent ← target m.model
    putTarget (parent.setRelated relation.field [child])
  | .many => do
    let parent ← target m.model
    let child ← attempt ((child.asModel relation.target).mapError .argument)
    putTarget (parent.setRelated relation.field (parent.relatedTo relation.field ++ [child]))

/-- Moving what a relation field holds, step by step: the source is emptied
before the target is looked at. -/
def transferring : Call Unit := do
  let src ← source m.model
  putSource (src.setRelated relation.field [])
  let dst ← target m.model
  putTarget (dst.setRelated relation.field (src.relatedTo relation.field))

variable {m c relation} {lent left : Lent} {v : Value} {child : Record} {e : Fault}

/-- Step by step, a column is set as the accessor sets it. -/
theorem setting_outcome :
    (m.setting c v).outcome lent
      = lent.changed (m.write c lent.target v) := by
  unfold setting write
  rw [outcome_bind, outcome_attempt]
  cases c.type.normalize v with
  | error e => rfl
  | ok stored =>
    show (target m.model >>= _).outcome lent = _
    rw [outcome_bind, outcome_target]
    cases lent.target.asModel m.model with
    | error e => rfl
    | ok record => rfl

/-- Step by step, a record is attached as the accessor attaches it. -/
theorem attaching_outcome :
    (m.attaching relation child).outcome lent
      = lent.changed ((m.attach relation lent.target child).mapError .argument) := by
  unfold attaching attach
  cases relation.kind with
  | one =>
    show (attempt _ >>= _).outcome lent = _
    rw [outcome_bind, outcome_attempt]
    cases child.asModel relation.target with
    | error e => rfl
    | ok child =>
      show (target m.model >>= _).outcome lent = _
      rw [outcome_bind, outcome_target]
      cases lent.target.asModel m.model with
      | error e => rfl
      | ok parent => rfl
  | many =>
    show (target m.model >>= _).outcome lent = _
    rw [outcome_bind, outcome_target]
    cases lent.target.asModel m.model with
    | error e => rfl
    | ok parent =>
      show (attempt _ >>= _).outcome lent = _
      rw [outcome_bind, outcome_attempt]
      cases child.asModel relation.target with
      | error e => rfl
      | ok child => rfl

/-- Step by step, a relation is moved as the accessor moves it. -/
theorem transferring_outcome :
    (m.transferring relation).outcome lent
      = (m.transfer relation lent.target lent.source).left := by
  unfold transferring transfer
  rw [outcome_bind, outcome_source]
  cases lent.source.asModel m.model with
  | error e => rfl
  | ok src =>
    show (putSource _ >>= _).outcome lent = _
    rw [outcome_bind, outcome_putSource]
    show (target m.model >>= _).outcome _ = _
    rw [outcome_bind, outcome_target]
    cases lent.target.asModel m.model with
    | error e => rfl
    | ok dst => rfl

theorem setting_failsClean : FailsClean (m.setting c v) := by
  apply FailsClean.behind (Looks.attempt _)
  intro stored
  apply FailsClean.behind (Looks.target _)
  intro record
  exact FailsClean.putTarget _

theorem attaching_failsClean : FailsClean (m.attaching relation child) := by
  unfold attaching
  cases relation.kind with
  | one =>
    apply FailsClean.behind (Looks.attempt _)
    intro child
    apply FailsClean.behind (Looks.target _)
    intro parent
    exact FailsClean.putTarget _
  | many =>
    apply FailsClean.behind (Looks.target _)
    intro parent
    apply FailsClean.behind (Looks.attempt _)
    intro child
    exact FailsClean.putTarget _

/-- A move fails on a source of another model and changes nothing, or on a
target of another model and has the source emptied by then. -/
theorem transferring_fails_iff :
    (m.transferring relation).outcome lent = (.error e, left)
      ↔ e = .argument (.wrongModel m.model)
        ∧ ((lent.source.model ≠ m.model ∧ left = lent)
          ∨ (lent.source.model = m.model ∧ lent.target.model ≠ m.model
            ∧ left = { lent with source := lent.source.setRelated relation.field [] })) := by
  rw [transferring_outcome, transfer]
  unfold Record.asModel Transfer.left
  by_cases hsource : lent.source.model = m.model
  · by_cases htarget : lent.target.model = m.model
    · simp [hsource, htarget]
    · simp [hsource, htarget, eq_comm]
  · rw [if_neg hsource]
    simp only [Prod.mk.injEq, Except.error.injEq, ne_eq, hsource, not_false_eq_true, true_and,
      false_and, or_false]
    exact and_congr eq_comm eq_comm

/-- What a failed accessor leaves. Setting a column and attaching a record
leave every record as it was. A failed move leaves the target, and leaves
the source as well unless the source is of the model and holds something in
the relation's field: then nothing is left of that, and the rest of the
source is as before. -/
theorem failed_calls_leave (m : Mapping) (c : Column) (relation : Relation) (v : Value)
    (child : Record) (lent : Lent) :
    ((m.setting c v).outcome lent = lent.changed (m.write c lent.target v)
      ∧ FailsClean (m.setting c v))
    ∧ ((m.attaching relation child).outcome lent
        = lent.changed ((m.attach relation lent.target child).mapError .argument)
      ∧ FailsClean (m.attaching relation child))
    ∧ (m.transferring relation).outcome lent
        = (m.transfer relation lent.target lent.source).left
    ∧ ∀ e left, (m.transferring relation).outcome lent = (.error e, left) →
        left.target = lent.target
        ∧ (left = lent ↔ lent.source.model ≠ m.model
            ∨ lent.source.related.lookup relation.field = some [])
        ∧ (left ≠ lent → left.source = lent.source.setRelated relation.field []) := by
  refine ⟨⟨setting_outcome, setting_failsClean⟩, ⟨attaching_outcome, attaching_failsClean⟩,
    transferring_outcome, ?_⟩
  intro e left h
  obtain ⟨-, ⟨hsource, rfl⟩ | ⟨hsource, -, rfl⟩⟩ := transferring_fails_iff.1 h
  · exact ⟨rfl, ⟨fun _ => Or.inl hsource, fun _ => rfl⟩, fun hne => absurd rfl hne⟩
  · refine ⟨rfl, ?_, fun _ => rfl⟩
    rw [Lent.with_source_eq_iff, Record.setRelated_eq_self_iff]
    exact ⟨Or.inr, fun hor => hor.resolve_left (absurd hsource)⟩

/-- The members that a member sponsors. -/
def sponsored : Relation where
  field := "sponsored"
  kind := .many
  target := "Member"
  targetTable := "members"
  pairs := [⟨"club", "sponsor_club"⟩, ⟨"number", "sponsor_number"⟩]

/-- A club to move to, and a member who sponsors another. -/
def clubAndSponsor : Lent where
  target := ⟨"Club", [("name", .text "Elk")], []⟩
  source := ⟨"Member", [("number", .int64 1)], [("sponsored", [memberMapping.blank])]⟩

/-- Members are not moved to a club: the club stays as it is, and the
sponsor is left without them. -/
theorem failed_move_leaves_club :
    ∃ left, (memberMapping.transferring sponsored).outcome clubAndSponsor
        = (.error (.argument (.wrongModel "Member")), left)
      ∧ left.target = clubAndSponsor.target
      ∧ left ≠ clubAndSponsor
      ∧ left.source = clubAndSponsor.source.setRelated "sponsored" [] := by
  obtain ⟨left, hfails⟩ : ∃ left, (memberMapping.transferring sponsored).outcome clubAndSponsor
      = (.error (.argument (.wrongModel "Member")), left) := ⟨_, rfl⟩
  obtain ⟨-, -, -, hleaves⟩ := failed_calls_leave memberMapping memberMapping.columns.head!
    sponsored .null memberMapping.blank clubAndSponsor
  obtain ⟨htarget, hkept, hemptied⟩ := hleaves _ left hfails
  have hchanged : left ≠ clubAndSponsor := by
    intro hsame
    obtain hother | hnothing := hkept.1 hsame
    · exact hother rfl
    · cases hnothing
  exact ⟨left, hfails, htarget, hchanged, hemptied hchanged⟩

/-- What the sponsor held is lost by the move that failed. -/
theorem failed_move_empties_sponsor :
    memberMapping.relation? "sponsored" = some sponsored
      ∧ ¬FailsClean (memberMapping.transferring sponsored) := by
  refine ⟨by decide, ?_⟩
  intro hclean
  have hleft := hclean clubAndSponsor _ _ rfl
  have hheld : (1 : Nat) = 0 :=
    congrArg (fun lent : Lent => (lent.source.relatedTo "sponsored").length) hleft.symm
  exact absurd hheld Nat.one_ne_zero

end Mapping

end RecordQuery
