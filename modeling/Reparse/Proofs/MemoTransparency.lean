import Reparse.Proofs.TokenStream.Numbering

/-!
# Transparency of the memo

A memo saves work and changes nothing. Whatever has been done to a stream and its memo, as long as
the entries come from parses of that stream, parsing gives the program and the reports that parsing
with an empty memo gives: both are those of a bare run over the tokens.
-/

namespace Reparse

open Reparse.Parser

def parseRun (stream : TokenStream) (memo : Memo) : Program Info × ParseState :=
  Grammar.program.eval ⟨stream.readAll.tokens, stream.readAll.nextId, {}⟩
    { read := stream.tokens.size, memo }

theorem program_parse (stream : TokenStream) (memo : Memo) :
    (parse stream memo).1.program = (parseRun stream memo).1 := rfl

theorem reports_parse (stream : TokenStream) (memo : Memo) :
    (parse stream memo).1.reports = (parseRun stream memo).2.reports.toList := rfl

def bareProgram (tokens : Array Token) : Program Info × ParseState :=
  Grammar.program.eval (.bare tokens {}) (.bare tokens 0)

theorem parseRun_read (stream : TokenStream) (memo : Memo) :
    ∃ read, stream.tokens.size ≤ read ∧ read ≤ stream.readAll.tokens.size ∧
      min 1 stream.readAll.tokens.size ≤ read ∧
      parseRun stream memo = Grammar.program.eval
        ⟨stream.readAll.tokens, stream.readAll.nextId, {}⟩ { read, memo } := by
  have hsize : stream.tokens.size ≤ stream.readAll.tokens.size := TokenStream.size_le_readMore ..
  have hlooks : Looks Grammar.program := Looks.consumeTrivia.bind
  refine ⟨(looked stream.readAll.tokens { read := stream.tokens.size, memo }).read, ?_, ?_, ?_, ?_⟩
  · exact Nat.le_max_left ..
  · simp only [looked]
    omega
  · simp only [looked]
    omega
  · rw [parseRun, ← hlooks]
    conv_rhs => rw [← hlooks]
    simp [looked]

theorem matches_parse {stream : TokenStream} {memo : Memo} {E : TokenId → Entry → Prop}
    (hstream : stream.Numbered) (hE : Trusted E stream.readAll.tokens stream.readAll.nextId)
    (hmemo : memo.Keeps E) :
    ∃ read, Matches (.same stream.readAll.tokens 0) stream.readAll.nextId E
      (.bare stream.readAll.tokens 0) { read, memo }
      (fun _ => From (.same stream.readAll.tokens 0) 0) (bareProgram stream.readAll.tokens)
      (parseRun stream memo) := by
  have hnumbered := (TokenStream.follows_readAll hstream).numbered
  obtain ⟨read, hstart, hread, hseen, hrun⟩ := parseRun_read stream memo
  refine ⟨read, ?_⟩
  have htwins := Twins.start (A := stream.readAll.tokens) id (Nat.zero_le _) hread
    (j := 0) (by omega) ((TokenStream.ascending_readMore _ hstream).mono hstart)
    (.inr fun t ht => hnumbered.lt_next t (Array.mem_toList_iff.mpr ht)) hmemo
  rw [hrun]
  exact (Grammar.alike_program rfl rfl).twin {} hE htwins (Nat.zero_le _) (Nat.zero_le _)
    (Window.agrees_same ..)

theorem parse_eq_bare {stream : TokenStream} {memo : Memo} {E : TokenId → Entry → Prop}
    (hstream : stream.Numbered) (hE : Trusted E stream.readAll.tokens stream.readAll.nextId)
    (hmemo : memo.Keeps E) :
    (parse stream memo).1.program = (bareProgram stream.readAll.tokens).1 ∧
      (parse stream memo).1.reports = (bareProgram stream.readAll.tokens).2.reports.toList := by
  obtain ⟨read, hmatch⟩ := matches_parse hstream hE hmemo
  obtain ⟨new, h₁, h₂⟩ := hmatch.twins.reports
  have hreports : (parseRun stream memo).2.reports =
      (bareProgram stream.readAll.tokens).2.reports := by
    rw [h₁, h₂]
    exact congrArg (#[] ++ ·) (Renumber.renumber_id new)
  rw [program_parse, reports_parse, hreports]
  exact ⟨hmatch.value.trans (Renumber.renumber_id _), rfl⟩

theorem SoundFrom.follows {a b : TokenStream} {key n : TokenId} {e : Entry} {A : Array Token} {i : Nat}
    (hfrom : SoundFrom a.tokens a.nextId key e A n i) (h : a.Follows b) :
    SoundFrom b.tokens b.nextId key e A n i := by
  refine { hfrom with next_le := Nat.le_trans hfrom.next_le h.next_le, sublist := ?_ }
  rw [← below_below (Nat.le_trans hfrom.filed.watermark hfrom.next_le)]
  have hbelow := h.sublist.filter fun t => decide (t.id < e.watermark)
  exact hbelow.trans hfrom.sublist

/-- A stream and the memo of its parses. -/
structure Session where
  stream : TokenStream
  memo : Memo

inductive SessionOp
  | readNext
  | readTo (i : Nat)
  | readAll
  | edit (start count : Nat) (inserted : Text)
  | mutate (first count : Nat) (text : Text)
  | parse
  | evict (key : TokenId)
  | forget (tokens : List Token)
  | clear
  deriving Repr

namespace Session

def ofSource (source : Text) : Session := ⟨.ofSource source, .empty⟩

def apply (s : Session) : SessionOp → Session
  | .readNext => { s with stream := s.stream.read.2 }
  | .readTo i => { s with stream := s.stream.readTo i }
  | .readAll => { s with stream := s.stream.readAll }
  | .edit start count inserted =>
    match s.stream.edit start count inserted with
    | .ok _ stream | .error _ stream => { s with stream }
  | .mutate first count text => { s with stream := (s.stream.mutate first count text).2 }
  | .parse => ⟨(Reparse.parse s.stream s.memo).2.1, (Reparse.parse s.stream s.memo).2.2⟩
  | .evict key => { s with memo := (s.memo.evict key).2 }
  | .forget tokens => { s with memo := (s.memo.forget tokens).2 }
  | .clear => { s with memo := .empty }

def run (s : Session) (ops : List SessionOp) : Session := ops.foldl apply s

/-- Every entry on file is sound for the stream as it is now. -/
structure Valid (s : Session) : Prop where
  numbered : s.stream.Numbered
  memo : s.memo.Keeps (Sound s.stream.tokens s.stream.nextId)

variable {s : Session}

theorem sound_follows {a b : TokenStream} (h : a.Follows b) {key : TokenId} {e : Entry}
    (he : Sound a.tokens a.nextId key e) : Sound b.tokens b.nextId key e := by
  obtain ⟨A, n, i, hfrom⟩ := he
  exact ⟨A, n, i, hfrom.follows h⟩

theorem Valid.follows (h : s.Valid) {stream : TokenStream} (hf : s.stream.Follows stream) :
    Valid { s with stream } :=
  ⟨hf.numbered, h.memo.mono fun _ _ => sound_follows hf⟩

theorem valid_ofSource (source : Text) : (ofSource source).Valid :=
  ⟨⟨List.nodup_nil, fun _ ht => absurd ht List.not_mem_nil⟩, .empty⟩

theorem trusted (h : s.Valid) :
    Trusted (Sound s.stream.readAll.tokens s.stream.readAll.nextId) s.stream.readAll.tokens
      s.stream.readAll.nextId :=
  trusted_sound (TokenStream.follows_readAll h.numbered).numbered.nodup
    (TokenStream.follows_readAll h.numbered).numbered.lt_next

theorem follows_apply (h : s.stream.Numbered) (op : SessionOp) :
    s.stream.Follows (s.apply op).stream := by
  cases op with
  | readNext => exact TokenStream.follows_read h
  | readTo i => exact TokenStream.follows_readTo i h
  | readAll => exact TokenStream.follows_readAll h
  | edit start count inserted =>
    simp only [Session.apply]
    cases hedit : s.stream.edit start count inserted with
    | error e s' =>
      obtain ⟨-, rfl⟩ := TokenStream.edit_refused hedit
      exact .refl h
    | ok m s' => exact TokenStream.follows_edit h hedit
  | mutate first count text => exact TokenStream.follows_mutate first count text h
  | parse => exact TokenStream.follows_readAll h
  | evict key => exact .refl h
  | forget tokens => exact .refl h
  | clear => exact .refl h

theorem follows_run (h : s.stream.Numbered) (ops : List SessionOp) :
    s.stream.Follows (s.run ops).stream := by
  induction ops generalizing s with
  | nil => exact .refl h
  | cons op ops ih =>
    have hop := follows_apply h op
    exact hop.trans (ih hop.numbered)

theorem Valid.apply (h : s.Valid) (op : SessionOp) : (s.apply op).Valid := by
  have hnumbered := h.numbered
  have hstream := h.follows (follows_apply hnumbered op)
  cases op with
  | readNext => exact hstream
  | readTo i => exact hstream
  | readAll => exact hstream
  | edit start count inserted =>
    simp only [Session.apply] at hstream ⊢
    cases hedit : s.stream.edit start count inserted with
    | error e s' =>
      rw [hedit] at hstream
      exact hstream
    | ok m s' =>
      rw [hedit] at hstream
      exact hstream
  | mutate first count text => exact hstream
  | parse =>
    have hread := h.follows (TokenStream.follows_readAll hnumbered)
    obtain ⟨read, hmatch⟩ := matches_parse hnumbered (trusted h) hread.memo
    exact ⟨hread.numbered, hmatch.twins.right_memo⟩
  | evict key => exact ⟨hnumbered, h.memo.evict key⟩
  | forget tokens => exact ⟨hnumbered, h.memo.forget tokens⟩
  | clear => exact ⟨hnumbered, .empty⟩

theorem Valid.run (h : s.Valid) (ops : List SessionOp) : (s.run ops).Valid := by
  induction ops generalizing s with
  | nil => exact h
  | cons op ops ih => exact ih (h.apply op)

/-- Whatever has been done before, a parse does not show the memo it is given: not in the program,
not in the reports, and not in the stream that says where they are. -/
theorem parse_eq_parse_empty (source : Text) (ops : List SessionOp) :
    let s := (ofSource source).run ops
    (parse s.stream s.memo).1.program = (parse s.stream .empty).1.program ∧
      (parse s.stream s.memo).1.reports = (parse s.stream .empty).1.reports ∧
      (parse s.stream s.memo).2.1 = (parse s.stream .empty).2.1 := by
  intro s
  have h : s.Valid := (valid_ofSource source).run ops
  have hread := h.follows (TokenStream.follows_readAll h.numbered)
  obtain ⟨hprogram, hreports⟩ := parse_eq_bare h.numbered (trusted h) hread.memo
  obtain ⟨hprogram', hreports'⟩ := parse_eq_bare h.numbered (trusted h) Memo.Keeps.empty
  exact ⟨hprogram.trans hprogram'.symm, hreports.trans hreports'.symm, rfl⟩

end Session

end Reparse
