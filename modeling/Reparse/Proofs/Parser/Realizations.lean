import Reparse.Proofs.Parser.Bare
import Reparse.Proofs.Parser.Routines

/-!
# Realizations

A parsing step is realized by a routine: running in a frame is saving and committing, running
tentatively is saving and rolling back, and changed flags are pushed for as long as they hold. The
routine is put together the way the step is, and comes with the proof that it gives what the step
gives, does to the state what the step does and closes every frame that it opens. That it leaves the
stacks of frames and flags as they were follows from its run.
-/

namespace Reparse

namespace Parser

variable {β γ σ : Type}

namespace Routine

variable {f : Routine β} {p : Parser β}

/-- The routine does what the parser does, and closes the frames that it opens. -/
structure Represents (f : Routine β) (p : Parser β) : Prop where
  value : ∀ c m, (f.run c m).value = (p.eval (m.context c) m.state).1
  state : ∀ c m, (f.run c m).machine.state = (p.eval (m.context c) m.state).2
  balanced : ∀ c m, Event.Balanced (f.run c m).events

namespace Represents

theorem frames (h : f.Represents p) (c : ParseContext) (m : Machine) :
    (f.run c m).machine.frames = m.frames :=
  (passes_balanced f (h.balanced c m)).frames

theorem flags (h : f.Represents p) (c : ParseContext) (m : Machine) :
    (f.run c m).machine.flags = m.flags :=
  (passes_balanced f (h.balanced c m)).flags

theorem machine (h : f.Represents p) (c : ParseContext) (m : Machine) :
    (f.run c m).machine = { m with state := (p.eval (m.context c) m.state).2 } := by
  rw [← h.state]
  calc (f.run c m).machine
      = ⟨(f.run c m).machine.state, (f.run c m).machine.frames, (f.run c m).machine.flags⟩ := rfl
    _ = ⟨(f.run c m).machine.state, m.frames, m.flags⟩ := by rw [h.frames, h.flags]

theorem bind {g : β → Routine γ} {q : β → Parser γ} (hf : f.Represents p)
    (hg : ∀ b, (g b).Represents (q b)) : (f.bind g).Represents (p >>= q) := by
  refine ⟨fun c m => ?_, fun c m => ?_, fun c m => ?_⟩
  · rw [run_bind, (hg _).value, hf.value, hf.machine]
    rfl
  · rw [run_bind, (hg _).state, hf.value, hf.machine]
    rfl
  · rw [run_bind]
    exact (hf.balanced c m).append ((hg _).balanced c _)

theorem ite {q : Prop} [Decidable q] {f' : Routine β} {p' : Parser β} (hf : f.Represents p)
    (hf' : f'.Represents p') : (if q then f else f').Represents (if q then p else p') := by
  split
  · exact hf
  · exact hf'

end Represents

end Routine

/-- A routine for a parser. -/
structure Realization (p : Parser β) where
  routine : Routine β
  represents : routine.Represents p

namespace Realization

def pure (b : β) : Realization (Pure.pure b) where
  routine := .done b
  represents := ⟨fun _ _ => rfl, fun _ _ => rfl, fun _ _ => rfl⟩

def bind {p : Parser β} {q : β → Parser γ} (hp : Realization p) (hq : ∀ b, Realization (q b)) :
    Realization (p >>= q) where
  routine := hp.routine.bind fun b => (hq b).routine
  represents := hp.represents.bind fun b => (hq b).represents

def map {p : Parser β} (hp : Realization p) (f : β → γ) : Realization (f <$> p) :=
  hp.bind fun b => pure (f b)

def ite {q : Prop} [Decidable q] {p p' : Parser β} (h : Realization p) (h' : Realization p') :
    Realization (if q then p else p') where
  routine := if q then h.routine else h'.routine
  represents := h.represents.ite h'.represents

/-- A step that has no effect on the cursor, the comments and the reports looks and takes notes. -/
def quiet (p : Parser β) (hcursor : ∀ c s, (p.eval c s).2.cursor = s.cursor)
    (hcomments : ∀ c s, (p.eval c s).2.comments = s.comments)
    (hreports : ∀ c s, (p.eval c s).2.reports = s.reports) : Realization p where
  routine :=
    .step (.look fun c s => ((p.eval c s).1, Books.of (p.eval c s).2)) fun r =>
    .step (.note r.2) fun _ => .done r.1
  represents := by
    refine ⟨fun c m => rfl, fun c m => ?_, fun c m => rfl⟩
    have hstate : (p.eval (m.context c) m.state).2 =
        { (p.eval (m.context c) m.state).2 with
          cursor := m.state.cursor, comments := m.state.comments, reports := m.state.reports } := by
      rw [← hcursor (m.context c) m.state, ← hcomments (m.context c) m.state,
        ← hreports (m.context c) m.state]
    rw [hstate]
    rfl

def read : Realization (MonadReader.read : Parser ParseContext) :=
  quiet _ (fun _ _ => rfl) (fun _ _ => rfl) (fun _ _ => rfl)

def get : Realization (MonadState.get : Parser ParseState) :=
  quiet _ (fun _ _ => rfl) (fun _ _ => rfl) (fun _ _ => rfl)

def readTo (i : Nat) : Realization (Parser.readTo i) :=
  quiet _ (fun _ _ => rfl) (fun _ _ => rfl) (fun _ _ => rfl)

def see (i : Nat) : Realization (Parser.see i) :=
  quiet _ (fun _ _ => rfl) (fun _ _ => rfl) (fun _ _ => rfl)

def flags : Realization Parser.flags := read.bind fun c => pure c.flags

def nextIndex : Realization Parser.nextIndex :=
  read.bind fun _ => get.bind fun _ => (readTo _).bind fun _ => (see _).bind fun _ => pure _

def nextToken : Realization Parser.nextToken := read.bind fun _ => nextIndex.bind fun _ => pure _

def nextKind : Realization Parser.nextKind := nextToken.bind fun _ => pure _

def isNext (k : Kind) : Realization (Parser.isNext k) := nextKind.bind fun _ => pure _

def consumeRaw (t : Token) : Realization (Parser.consumeRaw t) where
  routine :=
    .step (.look fun _ s => past t s) fun s =>
    .step (.note (.of s)) fun _ =>
    .step (.move s.cursor) fun _ =>
    .step (.gather (if t.kind = .comment then [t] else [])) .done
  represents := by
    refine ⟨fun c m => rfl, fun c m => ?_, fun c m => rfl⟩
    have hcomments : m.state.comments ++ (if t.kind = .comment then [t] else []) =
        if t.kind = .comment then m.state.comments ++ [t] else m.state.comments := by
      split
      · rfl
      · exact List.append_nil _
    rw [eval_consumeRaw, past, ← hcomments]
    rfl

def consumeMany : (n : Nat) → Realization (Parser.consumeMany n)
  | 0 => pure ()
  | n + 1 => read.bind fun c => get.bind fun s =>
    match c.tokens[s.cursor]? with
    | none => pure ()
    | some t => (consumeRaw t).bind fun _ => consumeMany n

def consume : Realization Parser.consume :=
  nextIndex.bind fun i => read.bind fun c =>
    match c.tokens[i]? with
    | none => pure none
    | some t => get.bind fun _ => (consumeMany _).bind fun _ => pure (some t)

def accept (k : Kind) : Realization (Parser.accept k) :=
  (isNext k).bind fun _ => ite consume (pure none)

def claimComments : Realization Parser.claimComments where
  routine := .step .claim .done
  represents := ⟨fun _ _ => rfl, fun _ _ => rfl, fun _ _ => rfl⟩

def lastConsumed : Realization Parser.lastConsumed :=
  get.bind fun _ => ite (read.bind fun _ => pure _) (pure none)

def infoFrom (first : Token) (comments : List Token) :
    Realization (Parser.infoFrom first comments) :=
  (lastConsumed.bind fun _ => pure _).bind fun _ => pure _

def infoAfter (start? : Option Info) : Realization (Parser.infoAfter start?) := by
  delta Parser.infoAfter
  exact match start?.bind Info.extent? with
  | some s => infoFrom s.first []
  | none => pure ({} : Info)

def report (anchor : Option Anchor) (code : Code) (args : List Text) :
    Realization (Parser.report anchor code args) where
  routine := .step (.report ⟨code, args, anchor⟩) .done
  represents := ⟨fun _ _ => rfl, fun _ _ => rfl, fun _ _ => rfl⟩

def reportStray (t : Token) (code : Code) : Realization (Parser.reportStray t code) := report ..

def reportNext (code : Code) (args : List Text) : Realization (Parser.reportNext code args) :=
  nextToken.bind fun
    | none => read.bind fun _ => report ..
    | some _ => report ..

def required {rule : Parser (Option β)} (h : Realization rule) (code : Code) (standIn : β) :
    Realization (Parser.required rule code standIn) :=
  h.bind fun
    | none => (reportNext code []).bind fun _ => pure standIn
    | some node => pure node

def require (k : Kind) : Realization (Parser.require k) :=
  (accept k).bind fun
    | none => (reportNext ..).bind fun _ => pure none
    | some t => pure (some t)

def underFlags {p : Parser β} (h : Realization p) (add remove : Flags) :
    Realization (Parser.underFlags add remove p) where
  routine := .flagged add remove h.routine .done
  represents := by
    refine ⟨fun c m => h.represents.value c _, fun c m => h.represents.state c _, fun c m => ?_⟩
    exact (h.represents.balanced c _).append rfl

def inBrackets {p : Parser β} (h : Realization p) : Realization (Parser.inBrackets p) :=
  h.underFlags {} { noObject := true }

def tentatively {p : Parser β} (h : Realization p) : Realization (Parser.tentatively p) where
  routine := h.routine.lookAhead
  represents := by
    have hrepresents := h.represents
    refine ⟨fun c m => ?_, fun c m => ?_, fun c m => ?_⟩
    · rw [run_lookAhead (hrepresents.balanced c _), hrepresents.value]
      rfl
    · rw [run_lookAhead (hrepresents.balanced c _), hrepresents.state]
      rfl
    · rw [run_lookAhead (hrepresents.balanced c _)]
      exact (hrepresents.balanced c _).frame (.inr rfl)

def framed {p : Parser β} (h : Realization p) : Realization (Parser.framed p) where
  routine := (h.bind fun b => get.bind fun s => pure (b, s.comments)).routine.committed
  represents := by
    have hrepresents := (h.bind fun b => get.bind fun s => pure (b, s.comments)).represents
    refine ⟨fun c m => ?_, fun c m => ?_, fun c m => ?_⟩
    · rw [run_committed (hrepresents.balanced c _), hrepresents.value]
      rfl
    · rw [run_committed (hrepresents.balanced c _),
        ← comments_eq_unclaimed (hrepresents.balanced c _), hrepresents.state]
      rfl
    · rw [run_committed (hrepresents.balanced c _)]
      exact (hrepresents.balanced c _).frame (.inl rfl)

def measured {p : Parser β} (h : Realization p) (start : Nat) :
    Realization (Parser.measured start p) :=
  (quiet _ (fun _ _ => rfl) (fun _ _ => rfl) (fun _ _ => rfl)).bind fun _ => h.bind fun _ =>
    get.bind fun _ => (quiet _ (fun _ _ => rfl) (fun _ _ => rfl) (fun _ _ => rfl)).bind
      fun _ => pure _

def watched {p : Parser β} (h : Realization p) : Realization (Parser.watched p) :=
  get.bind fun _ => h.bind fun _ => get.bind fun _ => pure _

def iterate {turn : σ → Parser (Turn σ)} (h : ∀ x, Realization (turn x)) :
    (n : Nat) → (x : σ) → Realization (Parser.iterate turn n x)
  | 0, x => pure x
  | n + 1, x => (h x).bind fun
    | .again x => iterate h n x
    | .done x => pure x

def loop {turn : σ → Parser (Turn σ)} (h : ∀ x, Realization (turn x)) (x : σ) :
    Realization (Parser.loop turn x) :=
  read.bind fun _ => get.bind fun _ => iterate h _ x

def skipTo (set : KindSet) : Realization (Parser.skipTo set) :=
  loop (fun _ => nextKind.bind fun
    | none => pure _
    | some _ => ite (pure _) (consume.bind fun _ => pure _)) false

def skipStray (set : KindSet) (code : Code) : Realization (Parser.skipStray set code) :=
  consume.bind fun
    | none => pure ()
    | some t => (reportStray t code).bind fun _ => (skipTo set).bind fun _ =>
      ite ((accept .semicolon).bind fun _ => pure ()) (pure ())

def seriesEnd? (shape : SeriesShape) : Realization (Parser.seriesEnd? shape) :=
  nextKind.bind fun
    | none => pure _
    | some _ => pure _

def checkTrailing (shape : SeriesShape) (t : Token) :
    Realization (Parser.checkTrailing shape t) := by
  delta Parser.checkTrailing
  exact match shape.allowTrailing, shape.terminator with
  | false, some _ => (isNext _).bind fun _ => ite (reportStray ..) (pure ())
  | false, none => pure ()
  | true, _ => pure ()

def afterItem (shape : SeriesShape) (moved : Bool) (b : Series β) :
    Realization (Parser.afterItem shape moved b) := by
  delta Parser.afterItem
  exact match shape.delimiter with
  | none => pure _
  | some _ => (accept _).bind fun
    | none => (seriesEnd? shape).bind fun _ => pure _
    | some t => (checkTrailing shape t).bind fun _ => pure _

def seriesTurn (shape : SeriesShape) {item : Parser (Option β)} (h : Realization item)
    (b : Series β) : Realization (Parser.seriesTurn shape item b) :=
  (seriesEnd? shape).bind fun
    | some _ => pure _
    | none => h.watched.bind fun
      | (some _, moved) => afterItem shape moved _
      | (none, _) =>
        match shape.resumeSet? with
        | none => pure _
        | some set => (skipStray set shape.stray).bind fun _ => pure _

def items (shape : SeriesShape) {item : Parser (Option β)} (h : Realization item) :
    Realization (Parser.items shape item) :=
  (loop (seriesTurn shape h) {}).bind fun _ => pure _

def reportAll : (rs : List (Report Anchor)) →
    Realization (modify fun s : ParseState => { s with reports := s.reports ++ rs.toArray })
  | [] => quiet _ (fun _ _ => rfl) (fun _ _ => rfl) fun _ _ => Array.append_empty
  | r :: rs =>
    { routine := .step (.report r) fun _ => (reportAll rs).routine
      represents := by
        refine ⟨fun c m => rfl, fun c m => ?_, fun c m => ?_⟩
        · have hpush : m.state.reports ++ (r :: rs).toArray =
              m.state.reports.push r ++ rs.toArray := by
            apply Array.toList_inj.mp
            simp
          change ((reportAll rs).routine.run c ((Op.report r).exec c m).2).machine.state =
            { m.state with reports := m.state.reports ++ (r :: rs).toArray }
          rw [hpush, (reportAll rs).represents.state]
          rfl
        · exact (reportAll rs).represents.balanced c _ }

section

variable [RuleNode β]

def replay (start : Nat) (e : Entry) : Realization (Parser.replay (β := β) start e) :=
  have hnote : Realization (modify fun s : ParseState => { s with
      reach := max s.reach (start + e.lookahead - 1)
      counts := { s.counts with hits := s.counts.hits + 1 } }) :=
    quiet _ (fun _ _ => rfl) (fun _ _ => rfl) (fun _ _ => rfl)
  have hmove : Realization (modify fun s : ParseState =>
      { s with cursor := start + e.consumed }) :=
    ⟨.step (.move (start + e.consumed)) .done, fun _ _ => rfl, fun _ _ => rfl, fun _ _ => rfl⟩
  have hgather : Realization (modify fun s : ParseState =>
      { s with comments := s.comments ++ e.leftover }) :=
    ⟨.step (.gather e.leftover) .done, fun _ _ => rfl, fun _ _ => rfl, fun _ _ => rfl⟩
  hnote.bind fun _ => hmove.bind fun _ => hgather.bind fun _ =>
    (reportAll e.reports).bind fun _ => pure _

def file (start : Nat) (key : TokenId) (node : Option β) (leftover : List Token) (reach : Nat)
    (reports : List (Report Anchor)) :
    Realization (Parser.file start key node leftover reach reports) :=
  quiet _ (fun _ _ => rfl) (fun _ _ => rfl) (fun _ _ => rfl)

def runAndFile (start : Nat) (key : TokenId) {body : Parser (Option β)} (h : Realization body) :
    Realization (Parser.runAndFile start key body) :=
  (quiet _ (fun _ _ => rfl) (fun _ _ => rfl) (fun _ _ => rfl)).bind fun _ =>
    (h.framed.measured start).bind fun _ => get.bind fun _ => (file ..).bind fun _ => pure _

def onFile? (start : Nat) (key : TokenId) : Realization (Parser.onFile? (β := β) start key) :=
  read.bind fun c => get.bind fun s =>
    match s.memo.get? key (RuleNode.rule β) c.flags with
    | none => pure none
    | some _ => (readTo _).bind fun _ => pure _

def remembered {body : Parser (Option β)} (h : Realization body) :
    Realization (Parser.remembered body) :=
  get.bind fun s => ((readTo _).bind fun _ => read.bind fun _ => pure _).bind fun
    | none => h
    | some key => (onFile? (β := β) s.cursor key.id).bind fun
      | none => runAndFile s.cursor key.id h
      | some e => replay s.cursor e

end

end Realization

end Parser

end Reparse
