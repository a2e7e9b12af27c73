import Reparse.Proofs.Parser.Eval

/-!
# Routines

Parsing steps as a program for a machine that has its open frames on a stack. Saving opens a frame:
it puts the cursor, the number of reports and the comments gathered so far on the stack, and goes on
without comments. Committing closes the innermost frame and keeps what happened in it; rolling back
closes it too and undoes that, the reports by cutting the list back to its former length.
-/

namespace Reparse

namespace Parser

variable {β γ δ : Type}

structure Frame where
  cursor : Nat
  reports : Nat
  comments : List Token

/-- A parsing state with the open frames and the flags in force, the innermost first. -/
structure Machine where
  state : ParseState
  frames : List Frame := []
  flags : List Flags := []

namespace Machine

def currentFlags (m : Machine) : Flags := m.flags.headD {}

def context (m : Machine) (c : ParseContext) : ParseContext := { c with flags := m.currentFlags }

def save (m : Machine) : Machine :=
  { m with
    state := { m.state with comments := [] }
    frames := ⟨m.state.cursor, m.state.reports.size, m.state.comments⟩ :: m.frames }

theorem save_frames (m : Machine) : m.save.frames =
    ⟨m.state.cursor, m.state.reports.size, m.state.comments⟩ :: m.frames := rfl

def commit (m : Machine) : Machine :=
  match m.frames with
  | [] => m
  | f :: fs =>
    { m with state := { m.state with comments := f.comments ++ m.state.comments }, frames := fs }

def rollback (m : Machine) : Machine :=
  match m.frames with
  | [] => m
  | f :: fs =>
    { m with
      state := { m.state with
        cursor := f.cursor
        comments := f.comments
        reports := m.state.reports.take f.reports }
      frames := fs }

def enter (m : Machine) (add remove : Flags) : Machine :=
  { m with flags := m.currentFlags.adjust add remove :: m.flags }

def leave (m : Machine) : Machine := { m with flags := m.flags.tail }

end Machine

/-- What a parser keeps besides its place, its comments and its reports. -/
structure Books where
  reach : Nat
  read : Nat
  memo : Memo
  counts : MemoCounts

def Books.of (s : ParseState) : Books := ⟨s.reach, s.read, s.memo, s.counts⟩

inductive Op : Type → Type 1
  | look {γ : Type} (f : ParseContext → ParseState → γ) : Op γ
  | note (b : Books) : Op Unit
  | move (cursor : Nat) : Op Unit
  | gather (ts : List Token) : Op Unit
  | claim : Op (List Token)
  | report (r : Report Anchor) : Op Unit
  | save : Op Unit
  | commit : Op Unit
  | rollback : Op Unit

/-- What becomes of comments hangs on these steps alone. -/
inductive Event
  | gathered (ts : List Token)
  | claimed
  | saved
  | committed
  | rolledBack
  deriving DecidableEq, Repr

namespace Op

def exec (c : ParseContext) (m : Machine) : Op γ → γ × Machine
  | look f => (f (m.context c) m.state, m)
  | note b =>
    ((), { m with state := { m.state with
      reach := b.reach, read := b.read, memo := b.memo, counts := b.counts } })
  | move n => ((), { m with state := { m.state with cursor := n } })
  | gather ts => ((), { m with state := { m.state with comments := m.state.comments ++ ts } })
  | claim => (m.state.comments, { m with state := { m.state with comments := [] } })
  | report r => ((), { m with state := { m.state with reports := m.state.reports.push r } })
  | save => ((), m.save)
  | commit => ((), m.commit)
  | rollback => ((), m.rollback)

def events : Op γ → List Event
  | gather ts => [.gathered ts]
  | claim => [.claimed]
  | save => [.saved]
  | commit => [.committed]
  | rollback => [.rolledBack]
  | look _ | note _ | move _ | report _ => []

end Op

/-- Steps one after the other, each chosen by what the ones before it gave. Flags are changed for a
part of them. -/
inductive Routine : Type → Type 1
  | done {β : Type} (b : β) : Routine β
  | step {γ β : Type} (op : Op γ) (next : γ → Routine β) : Routine β
  | flagged {γ β : Type} (add remove : Flags) (body : Routine γ) (next : γ → Routine β) : Routine β

structure Ran (β : Type) where
  value : β
  machine : Machine
  events : List Event

namespace Routine

def run (c : ParseContext) : {β : Type} → Routine β → Machine → Ran β
  | _, done b, m => ⟨b, m, []⟩
  | _, step op next, m =>
    let r := run c (next (op.exec c m).1) (op.exec c m).2
    ⟨r.value, r.machine, op.events ++ r.events⟩
  | _, flagged add remove body next, m =>
    let inner := run c body (m.enter add remove)
    let r := run c (next inner.value) inner.machine.leave
    ⟨r.value, r.machine, inner.events ++ r.events⟩

def bind : Routine β → (β → Routine γ) → Routine γ
  | done b, g => g b
  | step op next, g => step op fun x => (next x).bind g
  | flagged add remove body next, g => flagged add remove body fun x => (next x).bind g

def lookAhead (f : Routine β) : Routine β :=
  step .save fun _ => f.bind fun b => step .rollback fun _ => done b

def committed (f : Routine β) : Routine β :=
  step .save fun _ => f.bind fun b => step .commit fun _ => done b

theorem run_bind (f : Routine β) (g : β → Routine γ) (c : ParseContext) (m : Machine) :
    (f.bind g).run c m =
      ⟨((g (f.run c m).value).run c (f.run c m).machine).value,
        ((g (f.run c m).value).run c (f.run c m).machine).machine,
        (f.run c m).events ++ ((g (f.run c m).value).run c (f.run c m).machine).events⟩ := by
  induction f generalizing m with
  | done b => rfl
  | step op next ih =>
    rw [bind, run, ih, run, List.append_assoc]
  | flagged add remove body next _ ih =>
    rw [bind, run, ih, run, List.append_assoc]

end Routine

namespace Event

def depth : List Event → Nat → Option Nat
  | [], d => some d
  | .saved :: es, d => depth es (d + 1)
  | .committed :: es, d + 1 => depth es d
  | .rolledBack :: es, d + 1 => depth es d
  | .committed :: _, 0 => none
  | .rolledBack :: _, 0 => none
  | .gathered _ :: es, d => depth es d
  | .claimed :: es, d => depth es d

/-- Every frame that is opened is closed, and no other. -/
def Balanced (es : List Event) : Prop := depth es 0 = some 0

instance (es : List Event) : Decidable (Balanced es) := inferInstanceAs (Decidable (_ = _))

/-- Whether a comment is still there after some events. It is `n` frames further out than the
innermost one. Comments are claimed in the innermost frame only, committing moves them one frame out,
and rolling back drops those of the frame. -/
def survives : List Event → Nat → Bool
  | [], _ => true
  | .gathered _ :: es, n => survives es n
  | .claimed :: es, n => n ≠ 0 && survives es n
  | .saved :: es, n => survives es (n + 1)
  | .committed :: es, n => survives es (n - 1)
  | .rolledBack :: es, n => n ≠ 0 && survives es (n - 1)

def unclaimed : List Event → List Token
  | [] => []
  | .gathered ts :: es => (if survives es 0 then ts else []) ++ unclaimed es
  | .claimed :: es | .saved :: es | .committed :: es | .rolledBack :: es => unclaimed es

theorem depth_append (es es' : List Event) (d : Nat) :
    depth (es ++ es') d = (depth es d).bind (depth es') := by
  induction es generalizing d with
  | nil => rfl
  | cons e es ih =>
    cases e with
    | gathered ts => exact ih d
    | claimed => exact ih d
    | saved => exact ih (d + 1)
    | committed =>
      cases d with
      | zero => rfl
      | succ d => exact ih d
    | rolledBack =>
      cases d with
      | zero => rfl
      | succ d => exact ih d

theorem depth_add {es : List Event} {d d' : Nat} (h : depth es d = some d') (n : Nat) :
    depth es (d + n) = some (d' + n) := by
  induction es generalizing d with
  | nil => exact congrArg (fun k => some (k + n)) (Option.some.inj h)
  | cons e es ih =>
    cases e with
    | gathered ts => exact ih h
    | claimed => exact ih h
    | saved =>
      have hinner := ih (d := d + 1) h
      rwa [Nat.add_right_comm] at hinner
    | committed =>
      cases d with
      | zero => cases h
      | succ d =>
        rw [Nat.add_right_comm]
        exact ih (d := d) h
    | rolledBack =>
      cases d with
      | zero => cases h
      | succ d =>
        rw [Nat.add_right_comm]
        exact ih (d := d) h

theorem Balanced.append {es es' : List Event} (h : Balanced es) (h' : Balanced es') :
    Balanced (es ++ es') := by
  rw [Balanced, depth_append, h]
  exact h'

theorem Balanced.frame {es : List Event} (h : Balanced es) {e : Event}
    (he : e = .committed ∨ e = .rolledBack) : Balanced (.saved :: (es ++ [e])) := by
  have hinner : depth es 1 = some 1 := depth_add h 1
  change depth (es ++ [e]) 1 = some 0
  rw [depth_append, hinner]
  rcases he with rfl | rfl <;> rfl

def left (keeps : Nat → Bool) : List (List Token) → List Token
  | [] => []
  | b :: bs => left (fun n => keeps (n + 1)) bs ++ if keeps 0 then b else []

def outcome (bs : List (List Token)) (es : List Event) : List Token :=
  left (survives es) bs ++ unclaimed es

end Event

def Machine.buffers (m : Machine) (inner : List Frame) : List (List Token) :=
  m.state.comments :: inner.map Frame.comments

def Holds (base : Array (Report Anchor)) (inner : List Frame) (reports : Array (Report Anchor)) :
    Prop :=
  (∃ added, reports = base ++ added) ∧ ∀ f ∈ inner, base.size ≤ f.reports

/-- What a part of a run does from one machine to another: frames further out stay, and so do the
flags and older reports. What will be left of the comments at the end is settled by the events. -/
structure Passes (outer inner inner' : List Frame) (m m' : Machine) (es : List Event) : Prop where
  frames : m'.frames = inner' ++ outer
  flags : m'.flags = m.flags
  reports : ∀ base, Holds base inner m.state.reports → Holds base inner' m'.state.reports
  comments : ∀ later, Event.outcome (m.buffers inner) (es ++ later) =
    Event.outcome (m'.buffers inner') later

namespace Passes

variable {outer inner inner' inner'' : List Frame} {m m' m'' : Machine} {es es' : List Event}

theorem refl (h : m.frames = inner ++ outer) : Passes outer inner inner m m [] :=
  ⟨h, rfl, fun _ => id, fun _ => rfl⟩

theorem trans (h : Passes outer inner inner' m m' es) (h' : Passes outer inner' inner'' m' m'' es') :
    Passes outer inner inner'' m m'' (es ++ es') where
  frames := h'.frames
  flags := h'.flags.trans h.flags
  reports base hbase := h'.reports base (h.reports base hbase)
  comments later := by rw [List.append_assoc, h.comments, h'.comments]

theorem of_quiet (h : m.frames = inner ++ outer) (hframes : m'.frames = m.frames)
    (hflags : m'.flags = m.flags) (hcomments : m'.state.comments = m.state.comments)
    (hreports : ∃ added, m'.state.reports = m.state.reports ++ added) :
    Passes outer inner inner m m' [] where
  frames := hframes.trans h
  flags := hflags
  reports base hbase := by
    obtain ⟨⟨older, holder⟩, hinner⟩ := hbase
    obtain ⟨added, hadded⟩ := hreports
    exact ⟨⟨older ++ added, by rw [hadded, holder, Array.append_assoc]⟩, hinner⟩
  comments later := by
    rw [List.nil_append, Machine.buffers, Machine.buffers, hcomments]

theorem gathered (h : m.frames = inner ++ outer) (ts : List Token) (c : ParseContext) :
    Passes outer inner inner m ((Op.gather ts).exec c m).2 [.gathered ts] where
  frames := h
  flags := rfl
  reports _ := id
  comments later := by
    rw [Event.outcome, Event.outcome, Machine.buffers, Machine.buffers, Event.left, Event.left]
    cases hsurvives : Event.survives later 0 <;>
      simp [Op.exec, Event.survives, Event.unclaimed, hsurvives]

theorem claimed (h : m.frames = inner ++ outer) (c : ParseContext) :
    Passes outer inner inner m (Op.claim.exec c m).2 [.claimed] where
  frames := h
  flags := rfl
  reports _ := id
  comments later := by
    rw [Event.outcome, Event.outcome, Machine.buffers, Machine.buffers, Event.left, Event.left]
    simp [Op.exec, Event.survives, Event.unclaimed]

theorem saved (h : m.frames = inner ++ outer) : ∃ f, Passes outer inner (f :: inner) m m.save
    [.saved] := by
  refine ⟨⟨m.state.cursor, m.state.reports.size, m.state.comments⟩, ?_, rfl, ?_, ?_⟩
  · rw [Machine.save, h]
    rfl
  · intro base ⟨⟨added, hadded⟩, hinner⟩
    refine ⟨⟨added, hadded⟩, List.forall_mem_cons.mpr ⟨?_, hinner⟩⟩
    rw [hadded, Array.size_append]
    exact Nat.le_add_right _ _
  · intro later
    rw [Event.outcome, Event.outcome, Machine.buffers, Machine.buffers, List.map_cons, Event.left,
      Event.left]
    simp [Machine.save, Event.survives, Event.unclaimed, Event.left]

theorem committed {f : Frame} (h : m.frames = f :: inner ++ outer) :
    Passes outer (f :: inner) inner m m.commit [.committed] := by
  have hcommit : m.commit =
      { m with
        state := { m.state with comments := f.comments ++ m.state.comments }
        frames := inner ++ outer } := by
    rw [Machine.commit, h]
    rfl
  rw [hcommit]
  refine ⟨rfl, rfl, ?_, ?_⟩
  · intro base ⟨hadded, hinner⟩
    exact ⟨hadded, (List.forall_mem_cons.mp hinner).2⟩
  · intro later
    rw [Event.outcome, Event.outcome, Machine.buffers, Machine.buffers, List.map_cons, Event.left,
      Event.left, Event.left]
    cases hsurvives : Event.survives later 0 <;>
      simp [Event.survives, Event.unclaimed, hsurvives]

theorem rolledBack {f : Frame} (h : m.frames = f :: inner ++ outer) :
    Passes outer (f :: inner) inner m m.rollback [.rolledBack] := by
  have hrollback : m.rollback =
      { m with
        state := { m.state with
          cursor := f.cursor
          comments := f.comments
          reports := m.state.reports.take f.reports }
        frames := inner ++ outer } := by
    rw [Machine.rollback, h]
    rfl
  rw [hrollback]
  refine ⟨rfl, rfl, ?_, ?_⟩
  · intro base ⟨⟨added, hadded⟩, hinner⟩
    obtain ⟨hf, hinner⟩ := List.forall_mem_cons.mp hinner
    refine ⟨⟨added.take (f.reports - base.size), ?_⟩, hinner⟩
    change m.state.reports.take f.reports = _
    rw [hadded]
    apply Array.toList_inj.mp
    simp [List.take_of_length_le, hf]
  · intro later
    rw [Event.outcome, Event.outcome, Machine.buffers, Machine.buffers, List.map_cons, Event.left,
      Event.left, Event.left]
    simp [Event.survives, Event.unclaimed]

theorem flagged {add remove : Flags}
    (h : Passes outer inner inner' (m.enter add remove) m' es) :
    Passes outer inner inner' m m'.leave es where
  frames := h.frames
  flags := by
    rw [Machine.leave, h.flags]
    rfl
  reports := h.reports
  comments := h.comments

end Passes

section

variable {outer inner : List Frame} {m : Machine} {d : Nat} {c : ParseContext}

theorem passes_op (o : Op γ) (h : m.frames = inner ++ outer)
    (hd : Event.depth o.events inner.length = some d) :
    ∃ inner', inner'.length = d ∧ Passes outer inner inner' m (o.exec c m).2 o.events := by
  cases o with
  | look f => exact ⟨inner, Option.some.inj hd, .refl h⟩
  | note b => exact ⟨inner, Option.some.inj hd, .of_quiet h rfl rfl rfl ⟨#[], by simp [Op.exec]⟩⟩
  | move n => exact ⟨inner, Option.some.inj hd, .of_quiet h rfl rfl rfl ⟨#[], by simp [Op.exec]⟩⟩
  | gather ts => exact ⟨inner, Option.some.inj hd, .gathered h ts c⟩
  | claim => exact ⟨inner, Option.some.inj hd, .claimed h c⟩
  | report r =>
    exact ⟨inner, Option.some.inj hd, .of_quiet h rfl rfl rfl ⟨#[r], by simp [Op.exec]⟩⟩
  | save =>
    obtain ⟨f, hpasses⟩ := Passes.saved h
    exact ⟨f :: inner, Option.some.inj hd, hpasses⟩
  | commit =>
    cases inner with
    | nil => cases hd
    | cons f inner => exact ⟨inner, Option.some.inj hd, .committed h⟩
  | rollback =>
    cases inner with
    | nil => cases hd
    | cons f inner => exact ⟨inner, Option.some.inj hd, .rolledBack h⟩

theorem passes_run (f : Routine β) (h : m.frames = inner ++ outer)
    (hd : Event.depth (f.run c m).events inner.length = some d) :
    ∃ inner', inner'.length = d ∧
      Passes outer inner inner' m (f.run c m).machine (f.run c m).events := by
  induction f generalizing m inner d with
  | done b => exact ⟨inner, Option.some.inj hd, .refl h⟩
  | step o next ih =>
    have hsplit := Event.depth_append o.events ((next (o.exec c m).1).run c (o.exec c m).2).events
      inner.length
    rw [Routine.run, hsplit] at hd
    obtain ⟨d₁, hop, hrest⟩ := Option.bind_eq_some_iff.mp hd
    obtain ⟨inner₁, rfl, hpasses⟩ := passes_op (c := c) o h hop
    obtain ⟨inner₂, hlength, hrest⟩ := ih _ hpasses.frames hrest
    exact ⟨inner₂, hlength, hpasses.trans hrest⟩
  | flagged add remove body next ihBody ih =>
    rw [Routine.run, Event.depth_append] at hd
    obtain ⟨d₁, hbody, hrest⟩ := Option.bind_eq_some_iff.mp hd
    obtain ⟨inner₁, rfl, hpasses⟩ := ihBody (m := m.enter add remove) h hbody
    obtain ⟨inner₂, hlength, hrest⟩ := ih _ hpasses.flagged.frames hrest
    exact ⟨inner₂, hlength, hpasses.flagged.trans hrest⟩

theorem passes_balanced (f : Routine β) (hbalanced : Event.Balanced (f.run c m).events) :
    Passes m.frames [] [] m (f.run c m).machine (f.run c m).events := by
  obtain ⟨inner, hlength, hpasses⟩ := passes_run f (List.nil_append m.frames).symm hbalanced
  rw [List.length_eq_zero_iff.mp hlength] at hpasses
  exact hpasses

end

section

variable {f : Routine β} {c : ParseContext} {m : Machine}

theorem comments_eq_unclaimed (hbalanced : Event.Balanced (f.run c m.save).events) :
    (f.run c m.save).machine.state.comments = Event.unclaimed (f.run c m.save).events := by
  have hcomments := (passes_balanced f hbalanced).comments []
  rw [List.append_nil] at hcomments
  simpa [Event.outcome, Event.left, Event.survives, Event.unclaimed, Machine.buffers, Machine.save]
    using hcomments.symm

theorem reports_extend (hbalanced : Event.Balanced (f.run c m.save).events) :
    ∃ added, (f.run c m.save).machine.state.reports = m.state.reports ++ added := by
  have holds : Holds m.state.reports [] m.save.state.reports :=
    ⟨⟨#[], Array.append_empty.symm⟩, fun _ hf => nomatch hf⟩
  exact ((passes_balanced f hbalanced).reports _ holds).1

theorem reports_take (hbalanced : Event.Balanced (f.run c m.save).events) :
    (f.run c m.save).machine.state.reports.take m.state.reports.size = m.state.reports := by
  obtain ⟨added, hadded⟩ := reports_extend hbalanced
  rw [hadded]
  apply Array.toList_inj.mp
  simp

theorem run_lookAhead (hbalanced : Event.Balanced (f.run c m.save).events) :
    f.lookAhead.run c m = ⟨(f.run c m.save).value,
      { m with state := { (f.run c m.save).machine.state with
        cursor := m.state.cursor, comments := m.state.comments, reports := m.state.reports } },
      .saved :: ((f.run c m.save).events ++ [.rolledBack])⟩ := by
  have hpasses := passes_balanced f hbalanced
  have hrollback : (f.run c m.save).machine.rollback =
      { m with state := { (f.run c m.save).machine.state with
        cursor := m.state.cursor, comments := m.state.comments, reports := m.state.reports } } := by
    have hflags : (f.run c m.save).machine.flags = m.flags := hpasses.flags
    rw [Machine.rollback, hpasses.frames, hflags]
    simp only [List.nil_append, Machine.save_frames, reports_take hbalanced]
  rw [Routine.lookAhead, Routine.run]
  simp only [Op.exec, Routine.run_bind, Routine.run, hrollback]
  rfl

theorem run_committed (hbalanced : Event.Balanced (f.run c m.save).events) :
    f.committed.run c m = ⟨(f.run c m.save).value,
      { m with state := { (f.run c m.save).machine.state with
        comments := m.state.comments ++ Event.unclaimed (f.run c m.save).events } },
      .saved :: ((f.run c m.save).events ++ [.committed])⟩ := by
  have hpasses := passes_balanced f hbalanced
  have hcommit : (f.run c m.save).machine.commit =
      { m with state := { (f.run c m.save).machine.state with
        comments := m.state.comments ++ Event.unclaimed (f.run c m.save).events } } := by
    have hflags : (f.run c m.save).machine.flags = m.flags := hpasses.flags
    rw [Machine.commit, hpasses.frames, hflags]
    simp only [List.nil_append, Machine.save_frames, comments_eq_unclaimed hbalanced]
  rw [Routine.committed, Routine.run]
  simp only [Op.exec, Routine.run_bind, Routine.run, hcommit]
  rfl

end

end Parser

end Reparse
