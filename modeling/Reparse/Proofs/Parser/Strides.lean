import Reparse.Proofs.Parser.AgreeLoops

/-!
# Strides

Skipping tokens is the one thing a parser does without any help of the memo. It consumes tokens one
by one, so that nothing stays on file for them, and how far it goes hangs on where it starts alone.
-/

namespace Reparse

open Reparse.Parser

variable {tokens : Array Token} {next : TokenId} {β γ σ : Type}

/-- The parser consumes tokens one by one. What it finds and how far it goes is the same from every
state at the same cursor. -/
structure Strides (tokens : Array Token) (next : TokenId) (p : Parser β) : Prop where
  passes : ∀ {s : ParseState} flags, s.cursor ≤ tokens.size →
    Passes tokens s (p.eval ⟨tokens, next, flags⟩ s).2
  reports : ∀ flags s, (p.eval ⟨tokens, next, flags⟩ s).2.reports = s.reports
  blind : ∀ {s u : ParseState} flags, u.cursor = s.cursor →
    (p.eval ⟨tokens, next, flags⟩ u).1 = (p.eval ⟨tokens, next, flags⟩ s).1 ∧
      (p.eval ⟨tokens, next, flags⟩ u).2.cursor = (p.eval ⟨tokens, next, flags⟩ s).2.cursor

namespace Strides

variable {p : Parser β} {q : β → Parser γ}

theorem pure (b : β) : Strides tokens next (Pure.pure b) where
  passes _ hs := .refl hs
  reports _ _ := rfl
  blind _ hcursor := ⟨rfl, hcursor⟩

theorem bind (hp : Strides tokens next p) (hq : ∀ b, Strides tokens next (q b)) :
    Strides tokens next (p >>= q) where
  passes flags hs :=
    have hpasses := hp.passes flags hs
    hpasses.trans ((hq _).passes flags hpasses.within)
  reports flags s := by rw [eval_bind, (hq _).reports, hp.reports]
  blind {s u} flags hcursor := by
    obtain ⟨hvalue, hend⟩ := hp.blind flags hcursor
    rw [eval_bind, eval_bind, hvalue]
    exact (hq _).blind flags hend

theorem nextKind : Strides tokens next Parser.nextKind where
  passes _ hs := (Passes.refl hs).congr ⟨rfl, rfl, rfl⟩ ⟨rfl, rfl, rfl⟩
  reports _ _ := rfl
  blind _ hcursor := by
    simp only [Parser.nextKind, eval_bind, eval_nextToken, hcursor]
    exact ⟨rfl, hcursor⟩

theorem consume : Strides tokens next Parser.consume where
  passes flags hs := (passes_consume (c := ⟨tokens, next, flags⟩) hs).1
  reports flags s := reports_consume ⟨tokens, next, flags⟩ s
  blind {s u} flags hcursor := by
    rcases Nat.lt_or_ge tokens.size s.cursor with hpast | hs
    · have hnone : ∀ v : ParseState, v.cursor = s.cursor →
          tokens[nextReal tokens v.cursor]? = none := fun v hv =>
        Array.getElem?_eq_none (Nat.le_trans (by omega) (le_nextReal tokens v.cursor))
      rw [eval_consume, eval_consume, hnone u hcursor, hnone s rfl]
      exact ⟨rfl, hcursor⟩
    · obtain ⟨-, hvalue, hend⟩ := passes_consume (c := ⟨tokens, next, flags⟩) hs
      obtain ⟨-, hvalue', hend'⟩ :=
        passes_consume (c := ⟨tokens, next, flags⟩) (hcursor ▸ hs : u.cursor ≤ tokens.size)
      rw [hcursor] at hvalue' hend'
      have hsame := hvalue'.trans hvalue.symm
      rw [hsame] at hend'
      exact ⟨hsame, hend'.trans hend.symm⟩

theorem isNext (k : Kind) : Strides tokens next (isNext k) := nextKind.bind fun _ => .pure _

theorem accept (k : Kind) : Strides tokens next (accept k) := by
  refine (isNext k).bind fun b => ?_
  cases b with
  | true => exact .consume
  | false => exact .pure none

theorem iterate {turn : σ → Parser (Turn σ)} (h : ∀ b, Strides tokens next (turn b)) (n : Nat)
    (b : σ) : Strides tokens next (iterate turn n b) := by
  induction n generalizing b with
  | zero => exact .pure b
  | succ n ih =>
    refine (h b).bind fun t => ?_
    cases t with
    | again b' => exact ih b'
    | done b' => exact .pure b'

theorem loop {turn : σ → Parser (Turn σ)} (h : ∀ b, Strides tokens next (turn b)) (b : σ) :
    Strides tokens next (loop turn b) where
  passes flags hs := (iterate h _ b).passes flags hs
  reports flags s := (iterate h _ b).reports flags s
  blind {s u} flags hcursor := by
    rw [eval_loop, eval_loop, hcursor]
    exact (iterate h _ b).blind flags hcursor

theorem skipTo (set : KindSet) : Strides tokens next (skipTo set) := by
  refine .loop (fun _ => nextKind.bind fun k? => ?_) false
  cases k? with
  | none => exact .pure _
  | some k =>
    dsimp only
    split
    · exact .pure _
    · exact consume.bind fun _ => .pure _

end Strides

def skipOn (set : KindSet) : Parser Unit := do
  if ← skipTo set then
    let _ ← accept .semicolon

theorem strides_skipOn (set : KindSet) : Strides tokens next (skipOn set) := by
  refine (Strides.skipTo set).bind fun found => ?_
  cases found with
  | true => exact (Strides.accept .semicolon).bind fun _ => .pure ()
  | false => exact .pure ()

def noted (r : Report Anchor) (s : ParseState) : ParseState :=
  { s with reports := s.reports.push r }

theorem eval_skipStray {set : KindSet} {code : Code} {c : ParseContext} {s : ParseState} {t : Token}
    (ht : c.tokens[nextReal c.tokens s.cursor]? = some t) :
    (skipStray set code).eval c s =
      (skipOn set).eval c (noted (.stray code t) (consume.eval c s).2) := by
  have hvalue : (consume.eval c s).1 = some t := by rw [eval_consume, ht]
  rw [skipStray, eval_bind, hvalue]
  rfl

theorem passes_skipStray (next : TokenId) (flags : Flags) (set : KindSet) (code : Code)
    {s s' : ParseState} {t : Token} (hs : s.cursor ≤ tokens.size)
    (ht : tokens[nextReal tokens s.cursor]? = some t)
    (hs' : ((skipStray set code).eval ⟨tokens, next, flags⟩ s).2 = s') :
    Passes tokens s s' ∧ s.cursor < s'.cursor ∧ s'.reports = s.reports.push (.stray code t) ∧
      ∀ u : ParseState, u.cursor = s.cursor →
        ((skipStray set code).eval ⟨tokens, next, flags⟩ u).2.cursor = s'.cursor := by
  have hconsume : Strides tokens next consume := .consume
  have hskip : Strides tokens next (skipOn set) := strides_skipOn set
  obtain ⟨hpasses, hvalue, hcursor⟩ := passes_consume (c := ⟨tokens, next, flags⟩) hs
  rw [hvalue, ht, if_pos Option.isSome_some] at hcursor
  rw [eval_skipStray ht] at hs'
  have hreports : (noted (.stray code t) (consume.eval ⟨tokens, next, flags⟩ s).2).reports =
      s.reports.push (.stray code t) := by
    rw [noted, reports_consume]
  have hnoted : Passes tokens s (noted (.stray code t) (consume.eval ⟨tokens, next, flags⟩ s).2) :=
    hpasses.congr ⟨rfl, rfl, rfl⟩ ⟨rfl, rfl, rfl⟩
  have hlt : s.cursor <
      (noted (.stray code t) (consume.eval ⟨tokens, next, flags⟩ s).2).cursor := by
    change s.cursor < (consume.eval ⟨tokens, next, flags⟩ s).2.cursor
    rw [hcursor]
    exact Nat.lt_succ_of_le (le_nextReal tokens s.cursor)
  have hrest := hskip.passes flags hnoted.within
  subst hs'
  refine ⟨hnoted.trans hrest, Nat.lt_of_lt_of_le hlt hrest.le, ?_, fun u hu => ?_⟩
  · rw [hskip.reports, hreports]
  · rw [eval_skipStray (c := ⟨tokens, next, flags⟩) (hu ▸ ht)]
    refine (hskip.blind flags ?_).2
    exact (hconsume.blind flags hu).2

end Reparse
