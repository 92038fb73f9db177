/-
Cursors over rows in memory, through a whole run. A run is a list of calls,
and between any two of them a token may be cancelled and time go by. What
a call comes to is said of the events before it alone: how many rows were
delivered, whether the end was met or the cursor closed, and which row is
at hand.

# The invariant

After any events the cursor holds the rows behind those delivered, until
the events are over; then it is closed. The row it keeps is the one at
hand. Nothing that fails changes either: a context that has ended is found
out before the row at hand is given up, and slots of the wrong number are
refused before anything is moved into them.
-/
import Mathlib.Data.List.Basic
import RecordQuery.Running.Cursor

namespace RecordQuery

namespace Cursor

-- ================================================================ runs

/-- What is done with a cursor, or happens to its context meanwhile. -/
inductive Call where
  | next
  | scan (slots : List Value)
  | close
  | cancel (token : Token)
  | elapse (time : Nat)

/-- A call and what it came to. A scan leaves the slots with other values,
or as they were. -/
inductive Event where
  | next (result : Except Error Bool)
  | scan (slots : List Value) (result : Except ArgumentError Unit) (after : List Value)
  | close
  | cancel (token : Token)
  | elapse (time : Nat)

/-- What an event does to the row at hand: another one is, none is from now
on, it is taken, or nothing. -/
inductive Effect where
  | delivery
  | ending
  | taking
  | nothing
deriving DecidableEq

namespace Event

def call : Event → Call
  | next _ => .next
  | scan slots _ _ => .scan slots
  | close => .close
  | cancel token => .cancel token
  | elapse time => .elapse time

/-- The signals after an event. -/
def signals (now : Signals) : Event → Signals
  | cancel token => now.cancel token
  | elapse time => { now with now := now.now + time }
  | next _ | scan .. | close => now

def effect : Event → Effect
  | next (.ok true) => .delivery
  | next (.ok false) | close => .ending
  | scan _ (.ok ()) _ => .taking
  | next (.error _) | scan _ (.error _) _ | cancel _ | elapse _ => .nothing

end Event

/-- Does one call with a cursor. -/
def perform (c : Cursor) (now : Signals) : Call → Event × Cursor × Signals
  | .next =>
    let move := c.next now
    (.next move.result, move.cursor, move.signals)
  | .scan slots =>
    let (result, after, c) := c.scan slots
    (.scan slots result after, c, now)
  | .close => (.close, c.close, now)
  | .cancel token => (.cancel token, c, now.cancel token)
  | .elapse time => (.elapse time, c, { now with now := now.now + time })

/-- Does calls one after the other. -/
def run (c : Cursor) (now : Signals) : List Call → List Event
  | [] => []
  | call :: rest =>
    let (event, c, now) := c.perform now call
    event :: c.run now rest

-- ============================================================ histories

/-- The signals after events. -/
def signalsAfter (start : Signals) (events : List Event) : Signals :=
  events.foldl Event.signals start

/-- How many rows were delivered. -/
def deliveries (events : List Event) : Nat :=
  events.countP fun event => event.effect = .delivery

/-- The end was met, or the cursor was closed. -/
def Over (events : List Event) : Prop :=
  ∃ event ∈ events, event.effect = .ending

/-- The row at hand: delivered by the last move that delivered one, and left
there by everything since. In front of it there are as many rows as were
delivered earlier. -/
def AtHand (rows : List Row) (events : List Event) (row : Row) : Prop :=
  ∃ earlier later, events = earlier ++ .next (.ok true) :: later
    ∧ rows[deliveries earlier]? = some row ∧ ∀ event ∈ later, event.effect = .nothing

/-- What a call comes to after given events. -/
def Expected (context : Context) (rows : List Row) (now : Signals) (before : List Event) :
    Event → Prop
  | .next result =>
    (Over before → result = .ok false)
      ∧ (¬Over before → ∀ fault, context.fault? now = some fault → result = .error fault)
      ∧ (¬Over before → context.fault? now = none →
        result = .ok (decide (deliveries before < rows.length)))
  | .scan slots result after =>
    (∀ row, AtHand rows before row → row.length = slots.length → result = .ok () ∧ after = row)
      ∧ ((∀ row, AtHand rows before row → row.length ≠ slots.length) →
        (∃ e, result = .error e) ∧ after = slots)
      ∧ (Over before → ∃ e, result = .error e)
  | .close | .cancel _ | .elapse _ => True

variable {context : Context} {rows : List Row} {events : List Event} {event : Event} {row : Row}
  {c : Cursor} {now : Signals}

theorem deliveries_snoc (events : List Event) (event : Event) :
    deliveries (events ++ [event])
      = deliveries events + if event.effect = .delivery then 1 else 0 := by
  unfold deliveries
  rw [List.countP_append, List.countP_singleton]
  simp only [decide_eq_true_eq]

theorem over_snoc : Over (events ++ [event]) ↔ Over events ∨ event.effect = .ending := by
  unfold Over
  simp only [List.mem_append, List.mem_singleton, or_and_right, exists_or, exists_eq_left]

/-- The row at hand was delivered just now, or was at hand before and left
there. -/
theorem atHand_snoc : AtHand rows (events ++ [event]) row
    ↔ (event = .next (.ok true) ∧ rows[deliveries events]? = some row)
      ∨ (event.effect = .nothing ∧ AtHand rows events row) := by
  constructor
  · rintro ⟨earlier, later, hsplit, hrow, hlater⟩
    rcases List.eq_nil_or_concat later with rfl | ⟨between, last, rfl⟩
    · obtain ⟨rfl, hevent⟩ := List.append_inj' hsplit rfl
      exact Or.inl ⟨List.singleton_inj.1 hevent, hrow⟩
    · rw [List.concat_eq_append] at hsplit hlater
      rw [← List.cons_append, ← List.append_assoc] at hsplit
      obtain ⟨rfl, hevent⟩ := List.append_inj' hsplit rfl
      cases List.singleton_inj.1 hevent
      obtain ⟨hbetween, hlast⟩ := List.forall_mem_append.1 hlater
      exact Or.inr ⟨hlast _ (List.mem_singleton_self _), earlier, between, rfl, hrow, hbetween⟩
  · rintro (⟨rfl, hrow⟩ | ⟨hevent, earlier, later, rfl, hrow, hlater⟩)
    · exact ⟨events, [], rfl, hrow, List.forall_mem_nil _⟩
    · refine ⟨earlier, later ++ [event], by rw [List.append_assoc, List.cons_append], hrow, ?_⟩
      exact List.forall_mem_append.2 ⟨hlater, List.forall_mem_singleton.2 hevent⟩

/-- No row is at hand behind an event that gave it up. -/
theorem not_atHand_snoc (hevent : event.effect = .ending ∨ event.effect = .taking) :
    ¬AtHand rows (events ++ [event]) row := by
  rw [atHand_snoc]
  rintro (⟨rfl, -⟩ | ⟨hnothing, -⟩)
  · rcases hevent with h | h <;> cases h
  · rw [hnothing] at hevent
    rcases hevent with h | h <;> cases h

-- ============================================================== signals

/-- A token that was cancelled stays cancelled. -/
theorem isCancelled_signalsAfter {token : Token} : ∀ {events : List Event} {start : Signals},
    start.isCancelled token = true ∨ .cancel token ∈ events →
      (signalsAfter start events).isCancelled token = true
  | [], _, h => h.resolve_right List.not_mem_nil
  | event :: rest, start, h => by
      show (signalsAfter (event.signals start) rest).isCancelled token = true
      refine isCancelled_signalsAfter ?_
      rcases h with h | h
      · refine Or.inl ?_
        cases event with
        | cancel other =>
            unfold Signals.isCancelled at h ⊢
            rw [Event.signals, Signals.cancel, List.contains_cons, h, Bool.or_true]
        | next | scan | close | elapse => exact h
      · rcases List.mem_cons.1 h with rfl | h
        · refine Or.inl ?_
          unfold Signals.isCancelled
          rw [Event.signals, Signals.cancel, List.contains_cons, beq_self_eq_true, Bool.true_or]
        · exact Or.inr h

theorem fault?_of_isCancelled {token : Token} (htoken : context.token = some token)
    (h : now.isCancelled token = true) : context.fault? now = some .cancelled := by
  unfold Context.fault?
  rw [htoken, Option.any_some, if_pos h]

-- ================================================================ moves

theorem next_of_closed (h : c.source = .closed) : c.next now = ⟨.ok false, c.close, now⟩ := by
  simp only [next, h]

theorem next_of_fault {left : List Row} (h : c.source = .buffered left) {fault : Fault}
    (hfault : c.context.fault? now = some fault) : c.next now = ⟨.error fault, c, now⟩ := by
  simp only [next, h, Context.check, hfault]

theorem next_of_nil (h : c.source = .buffered []) (hfault : c.context.fault? now = none) :
    c.next now = ⟨.ok false, c.close, now⟩ := by
  simp only [next, h, Context.check, hfault]

theorem next_of_cons {rest : List Row} (h : c.source = .buffered (row :: rest))
    (hfault : c.context.fault? now = none) :
    c.next now = ⟨.ok true, { c with source := .buffered rest, current := some row }, now⟩ := by
  simp only [next, h, Context.check, hfault]

-- =========================================================== invariant

/-- Where a cursor over rows stands after events. -/
structure Stands (context : Context) (rows : List Row) (events : List Event) (c : Cursor) :
    Prop where
  context : c.context = context
  closed : Over events → c.source = .closed ∧ c.current = none
  remaining : ¬Over events → c.source = .buffered (rows.drop (deliveries events))
  current : ∀ row, c.current = some row ↔ AtHand rows events row

namespace Stands

/-- A cursor begins with all rows, and none at hand. -/
theorem start (context : Context) (rows : List Row) :
    Stands context rows [] { context, source := .buffered rows } where
  context := rfl
  closed := fun ⟨_, hmem, _⟩ => absurd hmem List.not_mem_nil
  remaining _ := rfl
  current row := by
    constructor
    · intro h
      cases h
    · rintro ⟨earlier, later, hsplit, -⟩
      exact absurd hsplit.symm (List.append_ne_nil_of_right_ne_nil _ (List.cons_ne_nil _ _))

section

variable (h : Stands context rows events c)
include h

theorem nothing (hevent : event.effect = .nothing) :
    Stands context rows (events ++ [event]) c where
  context := h.context
  closed hover := by
    rw [over_snoc, hevent] at hover
    exact h.closed (hover.resolve_right nofun)
  remaining hover := by
    rw [over_snoc, not_or] at hover
    rw [deliveries_snoc, hevent, if_neg nofun]
    exact h.remaining hover.1
  current row := by
    rw [atHand_snoc, h.current]
    constructor
    · exact fun hrow => Or.inr ⟨hevent, hrow⟩
    · rintro (⟨rfl, -⟩ | ⟨-, hrow⟩)
      · cases hevent
      · exact hrow

theorem taking (hevent : event.effect = .taking) :
    Stands context rows (events ++ [event]) { c with current := none } where
  context := h.context
  closed hover := by
    rw [over_snoc, hevent] at hover
    exact ⟨(h.closed (hover.resolve_right nofun)).1, rfl⟩
  remaining hover := by
    rw [over_snoc, not_or] at hover
    rw [deliveries_snoc, hevent, if_neg nofun]
    exact h.remaining hover.1
  current row := ⟨nofun, fun hrow => absurd hrow (not_atHand_snoc (Or.inr hevent))⟩

theorem ending (hevent : event.effect = .ending) :
    Stands context rows (events ++ [event]) c.close where
  context := h.context
  closed _ := ⟨rfl, rfl⟩
  remaining hover := absurd (over_snoc.2 (Or.inr hevent)) hover
  current _ := ⟨nofun, fun hrow => absurd hrow (not_atHand_snoc (Or.inl hevent))⟩

theorem delivery {rest : List Row} (hover : ¬Over events)
    (hdrop : rows.drop (deliveries events) = row :: rest) :
    Stands context rows (events ++ [.next (.ok true)])
      { c with source := .buffered rest, current := some row } where
  context := h.context
  closed hclosed := absurd ((over_snoc.1 hclosed).resolve_right nofun) hover
  remaining _ := by
    have hevent : (Event.next (.ok true)).effect = .delivery := rfl
    rw [deliveries_snoc, if_pos hevent, ← List.drop_drop, hdrop]
    rfl
  current row' := by
    have hrow : rows[deliveries events]? = some row := by
      rw [← List.head?_drop, hdrop, List.head?_cons]
    rw [atHand_snoc, hrow]
    exact ⟨fun heq => Or.inl ⟨rfl, heq⟩, fun hrow => hrow.elim And.right nofun⟩

-- ================================================================= steps

/-- A move comes to what is expected, and the cursor stands where it
should. -/
theorem next (now : Signals) :
    Expected context rows now events (.next (c.next now).result)
      ∧ (c.next now).signals = now
      ∧ Stands context rows (events ++ [.next (c.next now).result]) (c.next now).cursor := by
  by_cases hover : Over events
  · rw [next_of_closed (h.closed hover).1]
    exact ⟨⟨fun _ => rfl, absurd hover, absurd hover⟩, rfl, h.ending rfl⟩
  · have hremaining := h.remaining hover
    cases hfault : c.context.fault? now with
    | some fault =>
        rw [next_of_fault hremaining hfault]
        rw [h.context] at hfault
        refine ⟨⟨fun h => absurd h hover, fun _ found hfound => ?_, fun _ hnone => ?_⟩, rfl,
          h.nothing rfl⟩
        · cases hfault.symm.trans hfound
          rfl
        · cases hfault.symm.trans hnone
    | none =>
        have hnofault := h.context ▸ hfault
        cases hdrop : rows.drop (deliveries events) with
        | nil =>
            rw [hdrop] at hremaining
            rw [next_of_nil hremaining hfault]
            refine ⟨⟨fun h => absurd h hover, fun _ found hfound => ?_, fun _ _ => ?_⟩, rfl,
              h.ending rfl⟩
            · cases hnofault.symm.trans hfound
            · rw [decide_eq_false (Nat.not_lt.2 (List.drop_eq_nil_iff.1 hdrop))]
        | cons row rest =>
            rw [hdrop] at hremaining
            rw [next_of_cons hremaining hfault]
            refine ⟨⟨fun h => absurd h hover, fun _ found hfound => ?_, fun _ _ => ?_⟩, rfl,
              h.delivery hover hdrop⟩
            · cases hnofault.symm.trans hfound
            · have hlt : deliveries events < rows.length := by
                refine Nat.lt_of_not_le fun hle => ?_
                rw [List.drop_eq_nil_of_le hle] at hdrop
                cases hdrop
              rw [decide_eq_true hlt]

/-- So does a scan. -/
theorem scan (now : Signals) (slots : List Value) :
    Expected context rows now events (.scan slots (c.scan slots).1 (c.scan slots).2.1)
      ∧ Stands context rows (events ++ [.scan slots (c.scan slots).1 (c.scan slots).2.1])
        (c.scan slots).2.2 := by
  cases hcurrent : c.current with
  | none =>
      have hscan : c.scan slots = (.error .noCurrentRow, slots, c) := by
        simp only [Cursor.scan, hcurrent]
      have hnone : ∀ row, ¬AtHand rows events row := fun row hrow => by
        rw [← h.current, hcurrent] at hrow
        cases hrow
      rw [hscan]
      exact ⟨⟨fun row hrow => absurd hrow (hnone row), fun _ => ⟨⟨_, rfl⟩, rfl⟩, fun _ => ⟨_, rfl⟩⟩,
        h.nothing rfl⟩
  | some row =>
      have hrow : AtHand rows events row := (h.current row).1 hcurrent
      have hunique : ∀ {other}, AtHand rows events other → other = row := fun hother => by
        rw [← h.current, hcurrent] at hother
        cases hother
        rfl
      have hopen : ¬Over events := fun hover => by
        have hnone := (h.closed hover).2
        rw [hcurrent] at hnone
        cases hnone
      by_cases hlength : row.length = slots.length
      · have hscan : c.scan slots = (.ok (), row, { c with current := none }) := by
          simp only [Cursor.scan, hcurrent, if_pos hlength]
        rw [hscan]
        refine ⟨⟨fun other hother _ => ⟨rfl, (hunique hother).symm⟩, fun hwrong => ?_,
          fun hover => absurd hover hopen⟩, h.taking rfl⟩
        exact absurd hlength (hwrong row hrow)
      · have hscan : c.scan slots
            = (.error (.rowWidth row.length slots.length), slots, c) := by
          simp only [Cursor.scan, hcurrent, if_neg hlength]
        rw [hscan]
        refine ⟨⟨fun other hother hfits => ?_, fun _ => ⟨⟨_, rfl⟩, rfl⟩,
          fun _ => ⟨_, rfl⟩⟩, h.nothing rfl⟩
        rw [hunique hother] at hfits
        exact absurd hfits hlength

/-- Whatever is done, it comes to what is expected, and the cursor stands
where it should. -/
theorem perform (now : Signals) (call : Call) :
    (c.perform now call).1.call = call
      ∧ (c.perform now call).2.2 = (c.perform now call).1.signals now
      ∧ Expected context rows now events (c.perform now call).1
      ∧ Stands context rows (events ++ [(c.perform now call).1]) (c.perform now call).2.1 := by
  cases call with
  | next =>
      obtain ⟨hexpected, hsignals, hstands⟩ := h.next now
      exact ⟨rfl, hsignals, hexpected, hstands⟩
  | scan slots =>
      obtain ⟨hexpected, hstands⟩ := h.scan now slots
      exact ⟨rfl, rfl, hexpected, hstands⟩
  | close => exact ⟨rfl, rfl, trivial, h.ending rfl⟩
  | cancel token => exact ⟨rfl, rfl, trivial, h.nothing rfl⟩
  | elapse time => exact ⟨rfl, rfl, trivial, h.nothing rfl⟩

end

/-- Every call of a run comes to what is expected after the events before
it. -/
theorem run (start : Signals) : ∀ (calls : List Call) {events : List Event} {c : Cursor}
    {now : Signals}, Stands context rows events c → now = signalsAfter start events →
    (c.run now calls).map Event.call = calls
      ∧ ∀ before event after, c.run now calls = before ++ event :: after →
        Expected context rows (signalsAfter start (events ++ before)) (events ++ before) event
  | [], events, c, now, _, _ => by
      refine ⟨rfl, fun before event after hsplit => ?_⟩
      exact absurd hsplit.symm (List.append_ne_nil_of_right_ne_nil _ (List.cons_ne_nil _ _))
  | call :: rest, events, c, now, h, hnow => by
      obtain ⟨hcall, hsignals, hexpected, hstands⟩ := h.perform now call
      have hafter : (c.perform now call).2.2
          = signalsAfter start (events ++ [(c.perform now call).1]) := by
        rw [hsignals, hnow, signalsAfter, signalsAfter, List.foldl_append]
        rfl
      obtain ⟨hcalls, hrest⟩ := run start rest hstands hafter
      refine ⟨congrArg₂ List.cons hcall hcalls, fun before event after hsplit => ?_⟩
      cases before with
      | nil =>
          obtain ⟨rfl, -⟩ := List.cons.inj hsplit
          rw [List.append_nil, ← hnow]
          exact hexpected
      | cons first before =>
          obtain ⟨hfirst, hsplit⟩ := List.cons.inj hsplit
          rw [← hfirst, List.append_cons]
          exact hrest before event after hsplit

end Stands

-- ======================================================= the statement

/-- Through any run, a cursor delivers its rows one after the other, each
once. A scan takes the row at hand into slots of the same number; a scan
that fails changes neither. Once the end was met or the cursor closed,
every move says that there are no more rows and every scan fails, whatever
the context; and no move delivers once the context is cancelled. -/
theorem run_delivers_in_order (context : Context) (rows : List Row) (start : Signals)
    (calls : List Call) :
    (Cursor.run { context, source := .buffered rows } start calls).map Event.call = calls
      ∧ ∀ before event after,
        Cursor.run { context, source := .buffered rows } start calls = before ++ event :: after →
        Expected context rows (signalsAfter start before) before event
          ∧ (event = .next (.ok true) →
            ∃ row, rows[deliveries before]? = some row ∧ AtHand rows (before ++ [event]) row)
          ∧ (∀ slots e kept, event = .scan slots (.error e) kept →
            ∀ row, AtHand rows (before ++ [event]) row ↔ AtHand rows before row)
          ∧ ∀ token, context.token = some token →
            start.isCancelled token = true ∨ .cancel token ∈ before → event ≠ .next (.ok true) := by
  obtain ⟨hcalls, hrun⟩ := Stands.run start calls (Stands.start context rows) rfl
  refine ⟨hcalls, fun before event after hsplit => ?_⟩
  have hexpected : Expected context rows (signalsAfter start before) before event :=
    hrun before event after hsplit
  refine ⟨hexpected, ?_, ?_, ?_⟩
  · rintro rfl
    obtain ⟨hover, hended, hopen⟩ := hexpected
    have hnot : ¬Over before := fun h => nomatch hover h
    cases hfault : context.fault? (signalsAfter start before) with
    | some fault => cases hended hnot fault hfault
    | none =>
        have hlt : deliveries before < rows.length := by
          have hopen := hopen hnot hfault
          exact of_decide_eq_true (Except.ok.inj hopen).symm
        refine ⟨rows[deliveries before], List.getElem?_eq_getElem hlt, ?_⟩
        exact atHand_snoc.2 (Or.inl ⟨rfl, List.getElem?_eq_getElem hlt⟩)
  · rintro slots e kept rfl row
    rw [atHand_snoc]
    exact ⟨fun hrow => hrow.elim (fun h => nomatch h.1) And.right, fun hrow => Or.inr ⟨rfl, hrow⟩⟩
  · rintro token htoken hcancelled rfl
    have hfault := fault?_of_isCancelled htoken (isCancelled_signalsAfter hcancelled)
    obtain ⟨hover, hended, -⟩ := hexpected
    by_cases h : Over before
    · cases hover h
    · cases hended h _ hfault

/-- A row that was delivered before the context was cancelled is still at
hand afterwards, and is taken by the second scan, which has one slot. -/
theorem run_keeps_row_at_hand : ∃ before result kept after,
    Cursor.run { context := { token := some ⟨0⟩ }, source := .buffered [[.int64 1], [.int64 2]] } {}
        [.next, .scan [.null, .null], .cancel ⟨0⟩, .next, .scan [.null], .close, .next]
        = before ++ .scan [.null] result kept :: after
      ∧ .cancel ⟨0⟩ ∈ before ∧ result = .ok () ∧ kept = [.int64 1] := by
  have hsplit : Cursor.run
      { context := { token := some ⟨0⟩ }, source := .buffered [[.int64 1], [.int64 2]] } {}
      [.next, .scan [.null, .null], .cancel ⟨0⟩, .next, .scan [.null], .close, .next]
      = [.next (.ok true), .scan [.null, .null] (.error (.rowWidth 1 2)) [.null, .null],
          .cancel ⟨0⟩, .next (.error Fault.cancelled)]
        ++ .scan [.null] (.ok ()) [.int64 1] :: [.close, .next (.ok false)] := rfl
  obtain ⟨⟨htaken, -⟩, -⟩ := (run_delivers_in_order _ _ _ _).2 _ _ _ hsplit
  have hrow : AtHand [[.int64 1], [.int64 2]]
      [.next (.ok true), .scan [.null, .null] (.error (.rowWidth 1 2)) [.null, .null],
        .cancel ⟨0⟩, .next (.error Fault.cancelled)] [.int64 1] :=
    ⟨[], _, rfl, rfl, by simp [Event.effect]⟩
  exact ⟨_, _, _, _, hsplit, by simp, htaken _ hrow rfl⟩

end Cursor

end RecordQuery
