import Reparse.Proofs.Grammar.Build.Statements
import Reparse.Proofs.Parser.Results

/-!
# Courses

The course of a run is told by its cursor: it passes trivia, consumes real tokens one by one, and
every report is made with the cursor at some index. Where a report is about something that is
missing, the tokens from that index on do not begin with it, and the report is anchored at the first
real one of them.
-/

namespace Reparse

open Reparse.Parser
open Grammar (isIdentifier kindsFrom opensBlock startsExpression startsType)

variable {β γ σ : Type} {tokens : Array Token} {flags : Flags} {a b c : Trail} {i j k n : Nat}
  {rs front back : List (Report Anchor)} {r : Report Anchor} {t : Token}

/-- What the grammar insists on at some place. -/
inductive Demand
  | token (k : Kind)
  | identifier
  | type
  | block
  | expression (flags : Flags)

namespace Demand

def code : Demand → Code
  | token _ => .missingToken
  | identifier => .missingIdentifier
  | type => .missingType
  | block => .missingBlock
  | expression _ => .missingExpression

def args : Demand → List Text
  | token k => ["`".toList ++ k.describe ++ "`".toList]
  | _ => []

def Met (tokens : Array Token) (i : Nat) : Demand → Prop
  | token k => Leads tokens (fun k' => k' = k) i
  | identifier => Leads tokens isIdentifier i
  | type => Leads tokens startsType i
  | block => Leads tokens opensBlock i
  | expression flags => startsExpression flags (kindsFrom tokens i) = true

end Demand

def Report.missing (tokens : Array Token) (d : Demand) (i : Nat) : Report Anchor :=
  ⟨d.code, d.args, nextAnchor tokens i⟩

def Latest (tokens : Array Token) (i : Nat) (t : Token) : Prop :=
  t.isTrivia = false ∧ ∃ k, k + 1 = i ∧ tokens[k]? = some t

inductive Reported (tokens : Array Token) (i : Nat) : Report Anchor → Prop
  | stray {code : Code} {t : Token} : code.isSkip = true → Latest tokens i t →
      Reported tokens i (.stray code t)
  | mixed {operator : BinaryOperator} {t : Token} : Latest tokens i t → t.kind = operator.kind →
      operator.precedence = .logical → Reported tokens i ⟨.mixedLogic, [], some (.token t)⟩
  | rejected {target : Expression Info} {e : Extent} {j k : Nat} : Rejected tokens target →
      target.outline.extent? = some e → e.Spans tokens j k → k < i →
      Reported tokens i (.rejection target)
  | missing {d : Demand} : ¬d.Met tokens i → Reported tokens i (.missing tokens d i)

/-- The reports that are made while the cursor goes from index `i` to index `j`. -/
inductive Course (tokens : Array Token) (i : Nat) : List (Report Anchor) → Nat → Prop
  | start : Course tokens i [] i
  | trivia {rs : List (Report Anchor)} {j : Nat} : Course tokens i rs j →
      Course tokens i rs (nextReal tokens j)
  | token {rs : List (Report Anchor)} {j : Nat} {t : Token} : Course tokens i rs j →
      tokens[nextReal tokens j]? = some t → Course tokens i rs (nextReal tokens j + 1)
  | report {rs : List (Report Anchor)} {j : Nat} {r : Report Anchor} : Course tokens i rs j →
      Reported tokens j r → Course tokens i (rs ++ [r]) j

namespace Course

theorem le (h : Course tokens i rs j) : i ≤ j := by
  induction h with
  | start => exact Nat.le_refl i
  | trivia _ ih => exact Nat.le_trans ih (le_nextReal tokens _)
  | token _ _ ih => exact Nat.le_succ_of_le (Nat.le_trans ih (le_nextReal tokens _))
  | report _ _ ih => exact ih

theorem append (h : Course tokens i front j) (h' : Course tokens j back k) :
    Course tokens i (front ++ back) k := by
  induction h' with
  | start => rwa [List.append_nil]
  | trivia _ ih => exact .trivia ih
  | token _ ht ih => exact .token ih ht
  | report _ hr ih =>
    rw [← List.append_assoc]
    exact .report ih hr

theorem exists_point (h : Course tokens i rs k) (hrs : rs = front ++ r :: back) :
    ∃ j, Course tokens i front j ∧ Reported tokens j r ∧ Course tokens j back k := by
  induction h generalizing back with
  | start => exact absurd hrs.symm (by simp)
  | trivia _ ih =>
    obtain ⟨j, hfront, hr, hback⟩ := ih hrs
    exact ⟨j, hfront, hr, .trivia hback⟩
  | token _ ht ih =>
    obtain ⟨j, hfront, hr, hback⟩ := ih hrs
    exact ⟨j, hfront, hr, .token hback ht⟩
  | @report rs k r' hcourse hr' ih =>
    -- The last report is the one that is looked for, or it comes after that one.
    rcases List.eq_nil_or_concat back with rfl | ⟨more, last, rfl⟩
    · obtain ⟨rfl, hlast⟩ := List.append_inj' hrs rfl
      obtain rfl := List.singleton_inj.mp hlast
      exact ⟨k, hcourse, hr', .start⟩
    · rw [List.concat_eq_append, ← List.cons_append, ← List.append_assoc] at hrs
      obtain ⟨hinit, hlast⟩ := List.append_inj' hrs rfl
      obtain rfl := List.singleton_inj.mp hlast
      obtain ⟨j, hfront, hr, hback⟩ := ih hinit
      rw [List.concat_eq_append]
      exact ⟨j, hfront, hr, .report hback hr'⟩

end Course

def Along (tokens : Array Token) (a b : Trail) : Prop :=
  ∃ rs, b.reports = a.reports ++ rs ∧ Course tokens a.cursor rs b.cursor

namespace Along

theorem le (h : Along tokens a b) : a.cursor ≤ b.cursor := by
  obtain ⟨rs, -, hcourse⟩ := h
  exact hcourse.le

theorem trans (h : Along tokens a b) (h' : Along tokens b c) : Along tokens a c := by
  obtain ⟨front, hfront, hcourse⟩ := h
  obtain ⟨back, hback, hcourse'⟩ := h'
  refine ⟨front ++ back, ?_, hcourse.append hcourse'⟩
  rw [hback, hfront, List.append_assoc]

theorem of_eq (hcursor : b.cursor = a.cursor) (hreports : b.reports = a.reports) :
    Along tokens a b :=
  ⟨[], by rw [hreports, List.append_nil], hcursor ▸ .start⟩

theorem refl (a : Trail) : Along tokens a a := of_eq rfl rfl

theorem past (h : a.next? tokens = some t) : Along tokens a (a.past tokens) :=
  ⟨[], (List.append_nil _).symm, .token .start h⟩

theorem report (h : Along tokens a b) (hr : Reported tokens b.cursor r) :
    Along tokens a (b.reported r) := by
  obtain ⟨rs, hreports, hcourse⟩ := h
  refine ⟨rs ++ [r], ?_, hcourse.report hr⟩
  rw [Trail.reported, hreports, List.append_assoc]

end Along

theorem Built.exists_spans {o : Outline Info} (h : Built tokens a b o) :
    ∃ e j k, o.extent? = some e ∧ e.Spans tokens j k ∧ k < b.cursor := by
  obtain ⟨e, he, hlast, hsince⟩ := h
  obtain ⟨f, hwalk, -⟩ := hsince.advances
  obtain ⟨t, ht, hreal⟩ := hwalk.last hsince.lt
  obtain rfl : e.last = t := Option.some.inj (hlast.symm.trans ht)
  have hpast := hsince.past
  exact ⟨e, _, _, he, ⟨by omega, hsince.first, hlast, nextReal_real hsince.first, hreal⟩, by omega⟩

theorem Trail.latest_past (h : a.next? tokens = some t) : Latest tokens (a.past tokens).cursor t :=
  ⟨nextReal_real h, nextReal tokens a.cursor, rfl, h⟩

def Treads (tokens : Array Token) (flags : Flags) (n : Nat) (p : Parser β) : Prop :=
  ∀ a, n ≤ a.cursor → Runs tokens flags a p fun _ b => Along tokens a b

def Seeks (tokens : Array Token) (flags : Flags) (n : Nat) (d : Demand) (p : Parser (Option β)) :
    Prop :=
  ∀ a, n ≤ a.cursor → Runs tokens flags a p fun x? b =>
    Along tokens a b ∧ (x? = none → ¬d.Met tokens b.cursor)

namespace Treads

variable {p : Parser β}

theorem after (h : Treads tokens flags n p) (ha : Along tokens a b) (hn : n ≤ a.cursor) :
    Runs tokens flags b p fun _ c => Along tokens a c :=
  (h b (Nat.le_trans hn ha.le)).weaken fun _ _ hc => ha.trans hc

theorem pure (x : β) : Treads tokens flags n (Pure.pure x) := fun a _ => .pure (.refl a)

theorem bind {q : β → Parser γ} (hp : Treads tokens flags n p)
    (hq : ∀ x, Treads tokens flags n (q x)) : Treads tokens flags n (p >>= q) := fun a ha =>
  (hp a ha).bind fun x _ hb => (hq x).after hb ha

theorem map (f : β → γ) (h : Treads tokens flags n p) : Treads tokens flags n (f <$> p) :=
  fun a ha => (h a ha).map fun _ _ hb => hb

theorem behind (h : Treads tokens flags (n + 1) p) (ht : a.next? tokens = some t)
    (hn : n ≤ a.cursor) : Runs tokens flags (a.past tokens) p fun _ c => Along tokens a c := by
  have hpast : n + 1 ≤ (a.past tokens).cursor :=
    Nat.succ_le_succ (Nat.le_trans hn (le_nextReal tokens a.cursor))
  exact (h _ hpast).weaken fun _ _ hc => (Along.past ht).trans hc

theorem underFlags {add remove : Flags} (h : Treads tokens (flags.adjust add remove) n p) :
    Treads tokens flags n (underFlags add remove p) := fun a ha => (h a ha).underFlags

theorem remembered [RuleNode β] {p : Parser (Option β)} (h : Treads tokens flags n p) :
    Treads tokens flags n (remembered p) := fun a ha =>
  .remembered (fun _ => h a ha) (h { a with comments := [] } ha)

theorem loop {turn : σ → Parser (Turn σ)} (h : ∀ x, Treads tokens flags n (turn x)) (x : σ) :
    Treads tokens flags n (loop turn x) := fun a ha =>
  runs_loop_keeps (I := fun _ b => Along tokens a b) (fun x _ hb => (h x).after hb ha) (.refl a)

theorem seeks {p : Parser (Option β)} {d : Demand} {starts : Nat → Prop}
    {view : β → Outline Info} (h : Treads tokens flags n p)
    (hbuilds : Builds tokens flags n starts view p) (hmet : ∀ i, d.Met tokens i → starts i) :
    Seeks tokens flags n d p := fun a ha =>
  ((h a ha).both (hbuilds a ha)).weaken fun x? b hx => by
    obtain ⟨halong, hanswer⟩ := hx
    refine ⟨halong, fun hnone hdemand => ?_⟩
    subst hnone
    obtain ⟨rfl, hnot⟩ := hanswer
    exact hnot (hmet b.cursor hdemand)

end Treads

namespace Seeks

variable {d : Demand} {p : Parser (Option β)}

theorem treads (h : Seeks tokens flags n d p) : Treads tokens flags n p := fun a ha =>
  (h a ha).weaken fun _ _ hx => hx.1

theorem remembered [RuleNode β] (h : Seeks tokens flags n d p) :
    Seeks tokens flags n d (remembered p) := fun a ha =>
  .remembered (fun _ => h a ha) (h { a with comments := [] } ha)

end Seeks

theorem treads_nextToken : Treads tokens flags n nextToken := fun _ _ =>
  runs_nextToken.weaken fun _ _ hb => hb.1 ▸ .refl _

theorem treads_nextKind : Treads tokens flags n nextKind := treads_nextToken.bind fun _ => .pure _

theorem treads_isNext (k : Kind) : Treads tokens flags n (isNext k) :=
  treads_nextKind.bind fun _ => .pure _

theorem treads_consume : Treads tokens flags n consume := fun a _ =>
  runs_consume.weaken fun t? b hb => by
    cases t? with
    | none =>
      obtain ⟨-, rfl⟩ := hb
      exact .refl b
    | some t =>
      obtain ⟨ht, rfl⟩ := hb
      exact .past ht

theorem treads_consumeTrivia : Treads tokens flags n consumeTrivia := fun a _ =>
  runs_consumeTrivia.weaken fun _ b hb => by
    subst hb
    exact ⟨[], (List.append_nil _).symm, .trivia .start⟩

theorem treads_accept (k : Kind) : Treads tokens flags n (accept k) := fun a _ =>
  (runs_accept k).weaken fun t? b hb => by
    cases t? with
    | none =>
      obtain ⟨rfl, -⟩ := hb
      exact .refl b
    | some t =>
      obtain ⟨ht, -, rfl⟩ := hb
      exact .past ht

theorem treads_claimComments : Treads tokens flags n claimComments := fun _ _ =>
  runs_claimComments.weaken fun _ _ hb => hb.2 ▸ .of_eq rfl rfl

theorem treads_infoFrom (first : Token) (comments : List Token) :
    Treads tokens flags n (infoFrom first comments) := fun _ _ =>
  (runs_infoFrom first comments).weaken fun _ _ hb => hb ▸ .refl _

theorem treads_infoAfter (start? : Option Info) : Treads tokens flags n (infoAfter start?) :=
  fun _ _ => (runs_infoAfter start?).weaken fun _ _ hb => hb ▸ .refl _

theorem runs_reportNext_anchor (code : Code) (args : List Text) :
    Runs tokens flags a (reportNext code args) fun _ b =>
      b = a.reported ⟨code, args, nextAnchor tokens a.cursor⟩ := by
  rintro s hs rfl
  rw [eval_reportNext]
  refine ⟨⟨(prepared_looked hs).read, hs.memo, hs.within⟩, ?_⟩
  simp only [ParseState.trail, looked, Trail.reported, Array.toList_push]
  rfl

theorem runs_unmet {d : Demand} (ha : Along tokens a b) (hd : ¬d.Met tokens b.cursor) :
    Runs tokens flags b (reportNext d.code d.args) fun _ c => Along tokens a c :=
  (runs_reportNext_anchor d.code d.args).weaken fun _ _ hc => hc ▸ ha.report (.missing hd)

theorem treads_require (k : Kind) : Treads tokens flags n (require k) := fun a _ =>
  (runs_accept k).bind fun t? b hb => by
    cases t? with
    | some t =>
      obtain ⟨ht, -, rfl⟩ := hb
      exact .pure (.past ht)
    | none =>
      obtain ⟨rfl, hne⟩ := hb
      have hunmet : ¬(Demand.token k).Met tokens b.cursor :=
        not_leads_of_ne hne fun _ => of_decide_eq_true
      exact (runs_unmet (.refl b) hunmet).bind fun _ _ hc => .pure hc

theorem runs_demand {d : Demand} {rule : Parser (Option β)} {standIn : β}
    (h : Runs tokens flags b rule fun x? c =>
      Along tokens a c ∧ (x? = none → ¬d.Met tokens c.cursor)) (hargs : d.args = []) :
    Runs tokens flags b (required rule d.code standIn) fun _ c => Along tokens a c :=
  h.bind fun x? c hx => by
    cases x? with
    | some x => exact .pure hx.1
    | none =>
      have hreport : Runs tokens flags c (reportNext d.code d.args) fun _ e => Along tokens a e :=
        runs_unmet hx.1 (hx.2 rfl)
      rw [hargs] at hreport
      exact hreport.bind fun _ _ he => .pure he

theorem Seeks.required {d : Demand} {rule : Parser (Option β)} (h : Seeks tokens flags n d rule)
    (hargs : d.args = []) (standIn : β) : Treads tokens flags n (required rule d.code standIn) :=
  fun a ha => runs_demand (h a ha) hargs

theorem treads_skipTo (set : KindSet) : Treads tokens flags n (skipTo set) :=
  .loop (fun _ => treads_nextKind.bind fun k? => by
    cases k? with
    | none => exact .pure _
    | some k =>
      dsimp only
      split
      · exact .pure _
      · exact treads_consume.bind fun _ => .pure _) false

theorem treads_skipStray (set : KindSet) {code : Code} (hcode : code.isSkip = true) :
    Treads tokens flags n (skipStray set code) := fun a ha =>
  runs_consume.bind fun t? b hb => by
    cases t? with
    | none =>
      obtain ⟨-, rfl⟩ := hb
      exact .pure (.refl b)
    | some t =>
      obtain ⟨ht, rfl⟩ := hb
      refine (runs_reportStray t code).bind fun _ b hb => ?_
      subst hb
      have hstray : Along tokens a ((a.past tokens).reported (.stray code t)) :=
        (Along.past ht).report (.stray hcode (Trail.latest_past ht))
      refine ((treads_skipTo set).after hstray ha).bind fun found c hc => ?_
      split
      · exact ((treads_accept .semicolon).after hc ha).bind fun _ _ hd => .pure hd
      · exact .pure hc

theorem treads_items {shape : SeriesShape} {item : Parser (Option β)}
    (hstray : shape.stray.isSkip = true) (h : Treads tokens flags n item) :
    Treads tokens flags n (items shape item) := by
  intro a ha
  refine runs_items_keeps (K := fun _ b => Along tokens a b) (fun _ b hb => ?_)
    (fun _ b t hb ht _ => ?_) (.refl a)
  · refine (h.after hb ha).weaken fun x? c hc => ?_
    cases x? with
    | some x => exact hc
    | none =>
      cases hset : shape.resumeSet? with
      | none =>
        simp only [Proceeds, hset]
        exact hc
      | some set =>
        simp only [Proceeds, hset]
        exact (treads_skipStray set hstray).after hc ha
  · refine (runs_checkTrailing_reports shape t).weaken fun _ c hc => ?_
    have hpast : Along tokens a (b.past tokens) := hb.trans (.past ht)
    rcases hc with rfl | rfl
    · exact hpast
    · exact hpast.report (.stray rfl (Trail.latest_past ht))

end Reparse
