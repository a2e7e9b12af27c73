import Reparse.Proofs.TokenStream.Tiling

/-!
# Offsets of recorded shifts

A stream records a shift for each exchange of tokens and for nothing else. As long as the texts it
comes to have 32-bit sizes, the offsets of all these shifts are 64-bit numbers, and so is all that
comes up when a coordinate is moved by one of them.
-/

namespace Reparse

open Lexeme (joined)

namespace TokenStream

variable {lines : Bool} {s : TokenStream} {ls : List Lexeme}

theorem shifts_read (s : TokenStream) : s.read.2.timeline.shifts = s.timeline.shifts := by
  unfold read
  cases s.point.cut? with
  | none => rfl
  | some cut =>
    obtain ⟨l, next⟩ := cut
    dsimp only
    rw [timeline_reportFault]
    rfl

theorem shifts_readMore (n : Nat) (s : TokenStream) :
    (readMore n s).timeline.shifts = s.timeline.shifts := by
  induction n generalizing s with
  | zero => rfl
  | succ n ih =>
    rw [readMore_succ]
    split
    · exact (ih s.read.2).trans (shifts_read s)
    · exact shifts_read s

theorem shifts_readAllMuted (s : TokenStream) :
    s.readAllMuted.timeline.shifts = s.timeline.shifts :=
  shifts_readMore _ { s with reporter := s.reporter.mute true }

theorem shifts_restart (s : TokenStream) (source : Text) :
    (s.restart source).2.timeline.shifts = s.timeline.shifts :=
  shifts_readMore _ { s with source, point := .start source, reporter := s.reporter.clear }

theorem shifts_freezeAll (t : Timeline) (removed : List Token) :
    (removed.foldl (fun l t => l.freeze t.id) t).shifts = t.shifts := by
  induction removed generalizing t with
  | nil => rfl
  | cons token removed ih => exact ih (t.freeze token.id)

theorem shifts_makeAll (found : List FoundLexeme) (s : TokenStream) :
    (makeAll found s).2.timeline.shifts = s.timeline.shifts := by
  induction found generalizing s with
  | nil => rfl
  | cons f fs ih => exact ih (s.make f.point f.lexeme).2

theorem shifts_exchange (s : TokenStream) (first count : Nat) (text : Text) :
    (s.exchange first count text).2.timeline.shifts =
      s.timeline.shifts.push (s.exchangeShift first count text) := by
  rw [timeline_exchange, exchangeMade, shifts_makeAll]
  exact congrArg (fun shifts => shifts.push (s.exchangeShift first count text))
    (shifts_freezeAll s.timeline (s.exchangeRemoved first count text))

def ShiftsFit (lines : Bool) (s : TokenStream) : Prop :=
  ∀ m ∈ s.timeline.shifts, m.FitsWords lines

theorem ShiftsFit.congr {s' : TokenStream} (h : s.ShiftsFit lines)
    (hshifts : s'.timeline.shifts = s.timeline.shifts) : s'.ShiftsFit lines := by
  unfold ShiftsFit
  rwa [hshifts]

theorem Covers.fitsWords_exchangeShift (h : s.Covers lines ls) (hrest : s.point.rest = [])
    {first count : Nat} (hcount : first + count ≤ s.tokens.size) (text : Text)
    (hold : Text.Fits lines s.source)
    (hnew : Text.Fits lines (s.exchange first count text).2.source) :
    (s.exchangeShift first count text).FitsWords lines := by
  obtain ⟨ts, us, vs, as, bs, cs, rfl, rfl, rfl, hparted⟩ := h.exists_parted hrest hcount
  rw [hparted.source] at hold
  rw [source_exchange, hparted.exchangedSource] at hnew
  exact .of_seen (hparted.exchangeShift text)
    (Shift.fitsWords_between hold.of_append hnew.of_append)

theorem ShiftsFit.mutate (h : s.ShiftsFit lines) (hcovers : s.Covers lines ls)
    (hold : Text.Fits lines s.source) (first count : Nat) (text : Text)
    (hnew : Text.Fits lines (s.mutate first count text).2.source) :
    (s.mutate first count text).2.ShiftsFit lines := by
  have hread : s.readAllMuted.ShiftsFit lines := h.congr (shifts_readAllMuted s)
  obtain ⟨ms, hms, hrest⟩ := hcovers.readAllMuted
  have hsilent : Covers lines { s.readAllMuted with
      reporter := s.readAllMuted.reporter.emptySink } ms :=
    ⟨hms.toLays.congr rfl rfl rfl rfl, hms.source, hms.cut⟩
  rw [← source_readAllMuted] at hold
  unfold TokenStream.mutate at hnew ⊢
  cases hempty : s.readAllMuted.tokens.isEmpty with
  | true =>
    simp only [hempty, if_true]
    exact hread.congr (shifts_restart _ text)
  | false =>
    simp only [hempty, Bool.false_eq_true, if_false] at hnew ⊢
    intro m hm
    rw [shifts_exchange] at hm
    rcases Array.mem_push.mp hm with hm | rfl
    · exact hread m hm
    · exact hsilent.fitsWords_exchangeShift hrest (by dsimp only; omega) text hold hnew

end TokenStream

namespace Session

variable {lines : Bool} {s : Session} {ls : List Lexeme}

theorem shiftsFit_apply (h : s.stream.ShiftsFit lines) (hcovers : s.stream.Covers lines ls)
    (hold : Text.Fits lines s.stream.source) (op : SessionOp)
    (hnew : Text.Fits lines (s.apply op).stream.source) :
    (s.apply op).stream.ShiftsFit lines := by
  cases op with
  | readNext => exact h.congr (TokenStream.shifts_read _)
  | readTo i => exact h.congr (TokenStream.shifts_readMore _ _)
  | readAll => exact h.congr (TokenStream.shifts_readMore _ _)
  | edit start count inserted =>
    simp only [Session.apply] at hnew ⊢
    cases hedit : s.stream.edit start count inserted with
    | error e s' =>
      rw [(TokenStream.edit_refused hedit).2]
      exact h
    | ok m s' =>
      rw [hedit] at hnew
      obtain ⟨first, number, text, hmutate⟩ := TokenStream.exists_mutation_of_edit hedit
      obtain ⟨-, rfl⟩ := Prod.mk.inj hmutate
      obtain ⟨ms, hms, -⟩ := hcovers.readAllMuted
      have hread := h.congr (TokenStream.shifts_readAllMuted s.stream)
      rw [← TokenStream.source_readAllMuted] at hold
      exact hread.mutate hms hold first number text hnew
  | mutate first count text => exact h.mutate hcovers hold first count text hnew
  | parse => exact h.congr (TokenStream.shifts_readMore _ _)
  | evict key => exact h
  | forget tokens => exact h
  | clear => exact h

theorem shiftsFit_run_of_covers (hvalid : s.Valid) (h : s.stream.ShiftsFit lines)
    (hcovers : s.stream.Covers lines ls) (ops : List SessionOp)
    (hfits : ∀ done, done <+: ops → Text.Fits lines (s.run done).stream.source) :
    (s.run ops).stream.ShiftsFit lines := by
  induction ops generalizing s ls with
  | nil => exact h
  | cons op ops ih =>
    have hold : Text.Fits lines s.stream.source := hfits [] List.nil_prefix
    have hafter : ∀ done, done <+: ops →
        Text.Fits lines ((s.apply op).run done).stream.source :=
      fun done hdone => hfits (op :: done) (List.cons_prefix_cons.mpr ⟨rfl, hdone⟩)
    have hnew : Text.Fits lines (s.apply op).stream.source := hafter [] List.nil_prefix
    obtain ⟨ms, hms⟩ := covers_apply hvalid hcovers op fun _ => hnew
    exact ih (hvalid.apply op) (shiftsFit_apply h hcovers hold op hnew) hms hafter

/-- Whatever is done to a stream, 64-bit numbers suffice for the offsets it records and for moving
coordinates by them. -/
theorem shiftsFit_run (lines : Bool) (source : Text) (ops : List SessionOp)
    (hfits : ∀ done, done <+: ops → Text.Fits lines ((ofSource source).run done).stream.source) :
    ((ofSource source).run ops).stream.ShiftsFit lines := by
  have hnone : (ofSource source).stream.ShiftsFit lines := by
    intro m hm
    exact absurd hm (Array.not_mem_empty m)
  exact shiftsFit_run_of_covers (valid_ofSource source) hnone
    (TokenStream.covers_ofSource lines source) ops hfits

end Session

end Reparse
