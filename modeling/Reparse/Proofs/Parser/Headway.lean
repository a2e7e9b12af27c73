import Reparse.Proofs.Parser.BuildSeries

/-!
# Headway

A rule decides whether it finds something. If it does not, it has left everything as it was; if it
does, it has gone ahead, up to and including a real token. What is built by a rule tells as much,
and series that recover from what is no item make headway all the same.
-/

namespace Reparse

open Reparse.Parser

variable {β : Type} {tokens : Array Token} {flags : Flags} {a b : Trail} {i j k : Nat}

def Gains (tokens : Array Token) (i j : Nat) : Prop :=
  i < j ∧ ∃ t, tokens[j - 1]? = some t ∧ t.isTrivia = false

def Goes (tokens : Array Token) (i j : Nat) : Prop := j = i ∨ Gains tokens i j

theorem Gains.next (h : Gains tokens i j) (h' : Goes tokens j k) : Gains tokens i k := by
  rcases h' with rfl | ⟨hlt, hlast⟩
  · exact h
  · exact ⟨Nat.lt_trans h.1 hlt, hlast⟩

theorem Goes.trans (h : Goes tokens i j) (h' : Goes tokens j k) : Goes tokens i k := by
  rcases h with rfl | hgains
  · exact h'
  · exact .inr (hgains.next h')

theorem Walk.goes {claimed : List Token} {nodes : List (Outline Info)} {f : Findings}
    (h : Walk tokens a b claimed nodes f) : Goes tokens a.cursor b.cursor := by
  rcases Nat.eq_or_lt_of_le h.le with heq | hlt
  · exact .inl heq.symm
  · exact .inr ⟨hlt, h.last hlt⟩

theorem Walk.gains {claimed : List Token} {nodes : List (Outline Info)} {f : Findings}
    (h : Walk tokens a b claimed nodes f) (hlt : a.cursor < b.cursor) :
    Gains tokens a.cursor b.cursor := ⟨hlt, h.last hlt⟩

theorem gains_past {t : Token} (h : a.next? tokens = some t) :
    Gains tokens a.cursor (a.past tokens).cursor :=
  (Walk.past h).gains (Nat.lt_succ_of_le (le_nextReal tokens a.cursor))

/-- What a rule may do from the trail `a` on. -/
def Decides (tokens : Array Token) (a : Trail) : Option β → Trail → Prop
  | none, b => b = a
  | some _, b => Gains tokens a.cursor b.cursor

def Decisive (tokens : Array Token) (flags : Flags) (p : Parser (Option β)) : Prop :=
  ∀ a, Runs tokens flags a p (Decides tokens a)

def Going (tokens : Array Token) (flags : Flags) (p : Parser β) : Prop :=
  ∀ a, Runs tokens flags a p fun _ b => Goes tokens a.cursor b.cursor

theorem Builds.decisive {starts : Nat → Prop} {view : β → Outline Info} {p : Parser (Option β)}
    (h : Builds tokens flags 0 starts view p) : Decisive tokens flags p := by
  intro a
  refine (h a (Nat.zero_le _)).weaken fun x? b hx => ?_
  cases x? with
  | none => exact hx.1
  | some x =>
    obtain ⟨hbuilt, -⟩ := hx
    obtain ⟨f, hwalk, -⟩ := hbuilt.advances
    exact hwalk.gains hbuilt.lt

theorem Makes.going {view : β → List (Outline Info)} {p : Parser β}
    (h : Makes tokens flags 0 view p) : Going tokens flags p := by
  intro a
  refine (h a (Nat.zero_le _)).weaken fun x b hx => ?_
  obtain ⟨f, hwalk, -⟩ := hx
  exact hwalk.goes

namespace Going

variable {p : Parser β}

theorem behind (h : Going tokens flags p) (hi : Gains tokens i a.cursor) :
    Runs tokens flags a p fun _ b => Gains tokens i b.cursor :=
  (h a).weaken fun _ _ hb => hi.next hb

theorem underFlags {add remove : Flags} (h : Going tokens (flags.adjust add remove) p) :
    Going tokens flags (underFlags add remove p) := fun a => (h a).underFlags

end Going

theorem going_require (k : Kind) : Going tokens flags (require k) := (makes_require k 0).going

theorem going_infoFrom (first : Token) (comments : List Token) :
    Going tokens flags (infoFrom first comments) := by
  intro a
  refine (runs_lastConsumed.bind fun last? b hb => .pure ?_ :
    Runs tokens flags a (extentFrom first) fun _ b => b = a).bind fun _ b hb => .pure ?_
  · exact hb.1
  · exact .inl (congrArg Trail.cursor hb)

namespace Decisive

variable {p : Parser (Option β)}

theorem going (h : Decisive tokens flags p) : Going tokens flags p := by
  intro a
  refine (h a).weaken fun x? b hx => ?_
  cases x? with
  | none => exact .inl (congrArg Trail.cursor hx)
  | some x => exact .inr hx

theorem remembered [RuleNode β] (h : Decisive tokens flags p) :
    Decisive tokens flags (remembered p) := by
  intro a
  refine Runs.remembered (fun _ => h a) ((h { a with comments := [] }).weaken fun x? b hx => ?_)
  cases x? with
  | none =>
    obtain rfl : b = { a with comments := [] } := hx
    simp only [Decides, Trail.behind, List.append_nil]
  | some x => exact hx

theorem required (h : Decisive tokens flags p) (code : Code) (standIn : β) :
    Going tokens flags (required p code standIn) := by
  intro a
  refine (h a).bind fun x? b hx => ?_
  cases x? with
  | none =>
    obtain rfl : b = a := hx
    refine (runs_reportNext code []).bind fun _ c hc => .pure ?_
    obtain ⟨anchor, rfl⟩ := hc
    exact .inl rfl
  | some x => exact .pure (.inr hx)

end Decisive

theorem Decisive.recovering {shape : SeriesShape} {set : KindSet} {item : Parser (Option β)}
    (hitem : Decisive tokens flags item) (hdelimiter : shape.delimiter = none)
    (hset : shape.resumeSet? = some set) (hcode : shape.stray.isSkip = true) :
    Going tokens flags (items shape item) := by
  intro a
  refine (runs_loop (I := fun _ b => Goes tokens a.cursor b.cursor)
    (Q := fun _ b => Goes tokens a.cursor b.cursor) (fun s b hs => ?_) (.inl rfl)).bind
    fun s b hs => .pure hs
  refine (runs_seriesEnd? shape).bind fun stop? c hc => ?_
  obtain ⟨rfl, hstop⟩ := hc
  cases stop? with
  | some stop => exact .pure hs
  | none =>
    obtain ⟨t, ht, -⟩ := hstop
    refine (hitem c).watched.bind fun x d hx => ?_
    obtain ⟨x?, moved⟩ := x
    cases x? with
    | none =>
      obtain ⟨rfl, -⟩ : d = c ∧ _ := hx
      simp only [hset]
      refine (runs_skipStray set hcode ht).bind fun _ e he => .pure ?_
      obtain ⟨run, hwalk, -, -, hlt⟩ := he
      exact ⟨hs.trans hwalk.goes, hlt⟩
    | some x =>
      obtain ⟨hgains, hmoved⟩ : Gains tokens c.cursor d.cursor ∧ _ := hx
      have htrue : moved = true := hmoved.trans (decide_eq_true (Nat.ne_of_gt hgains.1))
      subst htrue
      simp only [afterItem, hdelimiter, if_true]
      exact .pure ⟨hs.trans (.inr hgains), hgains.1⟩

end Reparse
