import Reparse.Proofs.Parser.Walks

/-!
# What rules build

A rule finds nothing, and then it stays where it is, or it builds a node that goes from the first
real token it consumed through the last one. Which of the two it is hangs on the tokens ahead. What
must not be missing is built either way: for a missing part stands a node that lies nowhere.
-/

namespace Reparse

open Reparse.Parser

variable {β γ : Type} {tokens : Array Token} {flags : Flags} {a b c : Trail} {n : Nat}
  {first : Token} {claimed : List Token} {nodes more : List (Outline Info)}

def Advances (tokens : Array Token) (a b : Trail) (claimed : List Token)
    (nodes : List (Outline Info)) : Prop :=
  ∃ f, Walk tokens a b claimed nodes f ∧ f.input = []

namespace Advances

theorem of_walk {f : Findings} (h : Walk tokens a b claimed nodes f) (hf : f.input = []) :
    Advances tokens a b claimed nodes := ⟨f, h, hf⟩

theorem le (h : Advances tokens a b claimed nodes) : a.cursor ≤ b.cursor := by
  obtain ⟨f, hwalk, -⟩ := h
  exact hwalk.le

theorem refl (a : Trail) : Advances tokens a a [] [] := .of_walk (.refl a) rfl

theorem absent (a : Trail) (h : ∀ o ∈ nodes, o.Absent) : Advances tokens a a [] nodes :=
  .of_walk (.absent a h) rfl

theorem past {t : Token} (h : a.next? tokens = some t) : Advances tokens a (a.past tokens) [] [] :=
  .of_walk (.past h) rfl

theorem report (a : Trail) {r : Report Anchor} (hr : r.code.isPlain = true) :
    Advances tokens a (a.reported r) [] [] := .of_walk (.report a hr) rfl

theorem trans (h : Advances tokens a b claimed nodes) (h' : Advances tokens b c [] more) :
    Advances tokens a c claimed (nodes ++ more) := by
  obtain ⟨f, hf, hinput⟩ := h
  obtain ⟨g, hg, hinput'⟩ := h'
  refine .of_walk (hf.trans hg) ?_
  change f.input ++ g.input = []
  rw [hinput, hinput', List.append_nil]

theorem next (h : Advances tokens a b claimed nodes) (h' : Advances tokens b c [] []) :
    Advances tokens a c claimed nodes := by
  have htrans := h.trans h'
  rwa [List.append_nil] at htrans

end Advances

structure Since (tokens : Array Token) (a b : Trail) (first : Token) (claimed : List Token)
    (nodes : List (Outline Info)) : Prop where
  advances : Advances tokens a b claimed nodes
  first : a.next? tokens = some first
  past : nextReal tokens a.cursor < b.cursor

/-- The walk from `a` to `b` built one node, which lies on all real tokens that were passed. -/
def Built (tokens : Array Token) (a b : Trail) (o : Outline Info) : Prop :=
  ∃ e, o.extent? = some e ∧ tokens[b.cursor - 1]? = some e.last ∧ Since tokens a b e.first [] [o]

def Form.isOrdinary : Form → Bool
  | .missingExpression | .missingType | .identifier | .block => false
  | _ => true

theorem Form.ne_of_isOrdinary {form : Form} (h : form.isOrdinary = true) :
    (form ≠ .missingExpression ∧ form ≠ .missingType) ∧ form ≠ .identifier ∧ form ≠ .block := by
  refine ⟨⟨?_, ?_⟩, ?_, ?_⟩
  all_goals
    rintro rfl
    cases h

namespace Since

theorem lt (h : Since tokens a b first claimed nodes) : a.cursor < b.cursor :=
  Nat.lt_of_le_of_lt (le_nextReal tokens a.cursor) h.past

theorem trans (h : Since tokens a b first claimed nodes) (h' : Advances tokens b c [] more) :
    Since tokens a c first claimed (nodes ++ more) :=
  ⟨h.advances.trans h', h.first, Nat.lt_of_lt_of_le h.past h'.le⟩

theorem next (h : Since tokens a b first claimed nodes) (h' : Advances tokens b c [] []) :
    Since tokens a c first claimed nodes :=
  ⟨h.advances.next h', h.first, Nat.lt_of_lt_of_le h.past h'.le⟩

theorem exists_last (h : Since tokens a b first claimed nodes) :
    ∃ last, tokens[b.cursor - 1]? = some last := by
  obtain ⟨f, hf, -⟩ := h.advances
  obtain ⟨last, hlast, -⟩ := hf.last h.lt
  exact ⟨last, hlast⟩

theorem built {form : Form} {last : Token} (h : Since tokens a b first claimed nodes)
    (hlast : tokens[b.cursor - 1]? = some last) (text? : Option Text)
    (hform : form.isOrdinary = true) :
    Built tokens a b (.node form text? (some ⟨some ⟨first, last⟩, claimed⟩) nodes) := by
  obtain ⟨f, hf, hinput⟩ := h.advances
  obtain ⟨hpresent, hname, hblock⟩ := Form.ne_of_isOrdinary hform
  have hclosed : Walk tokens a b []
      [.node form text? (some ⟨some ⟨first, last⟩, claimed⟩) nodes] f :=
    hf.close (List.append_nil _) h.first h.past hlast hpresent (fun heq => absurd heq hname)
    fun e heq => absurd heq hblock
  exact ⟨_, rfl, hlast, .of_walk hclosed hinput, h.first, h.past⟩

theorem infoFrom (h : Since tokens a b first claimed nodes) :
    Runs tokens flags b (infoFrom first claimed) fun info c => c = b ∧
      ∃ last, tokens[b.cursor - 1]? = some last ∧ info = ⟨some ⟨first, last⟩, claimed⟩ := by
  have hpos : 0 < b.cursor := Nat.zero_lt_of_lt h.lt
  obtain ⟨last, hlast⟩ := h.exists_last
  refine (runs_extentFrom first hpos).bind fun extent? c h => .pure ?_
  obtain ⟨rfl, rfl⟩ := h
  exact ⟨rfl, last, hlast, by rw [hlast]; rfl⟩

theorem closes {rest : Info → Parser γ} {R : γ → Trail → Prop}
    (h : Since tokens a b first claimed nodes)
    (hrest : ∀ info, (∀ form text?, form.isOrdinary = true →
      Built tokens a b (.node form text? (some info) nodes)) → Runs tokens flags b (rest info) R) :
    Runs tokens flags b (Parser.infoFrom first claimed >>= rest) R := by
  refine h.infoFrom.bind fun info c hinfo => ?_
  obtain ⟨rfl, last, hlast, rfl⟩ := hinfo
  exact hrest _ fun form text? hform => h.built hlast text? hform

end Since

namespace Built

variable {o : Outline Info}

theorem lt (h : Built tokens a b o) : a.cursor < b.cursor := by
  obtain ⟨e, -, -, hsince⟩ := h
  exact hsince.lt

theorem advances (h : Built tokens a b o) : Advances tokens a b [] [o] := by
  obtain ⟨e, -, -, hsince⟩ := h
  exact hsince.advances

theorem framed (h : Built tokens { a with comments := [] } b o) :
    Built tokens a (a.behind b) o := by
  obtain ⟨e, he, hlast, ⟨f, hf, hinput⟩, hfirst, hpast⟩ := h
  exact ⟨e, he, hlast, .of_walk hf.framed hinput, hfirst, hpast⟩

theorem wrapped (h : Built tokens a b o) {form : Form} (hform : form.isOrdinary = true) :
    Built tokens a b (.node form none (some ⟨o.extent?, []⟩) [o]) := by
  obtain ⟨e, he, hlast, hsince⟩ := h
  rw [he]
  exact hsince.built hlast none hform

theorem closes {info? : Option Info} {rest : Info → Parser γ} {R : γ → Trail → Prop}
    (h : Built tokens a b o) (hinfo : o.info? = info?) (hc : Advances tokens b c [] more)
    (hrest : ∀ info, (∀ form text?, form.isOrdinary = true →
      Built tokens a c (.node form text? (some info) (o :: more))) →
        Runs tokens flags c (rest info) R) :
    Runs tokens flags c (infoAfter info? >>= rest) R := by
  -- The annotation begins with the first token of the inner node, where the walk began as well.
  obtain ⟨e, he, -, hsince⟩ := h
  have hafter : infoAfter info? = infoFrom e.first [] := by
    rw [infoAfter, ← hinfo]
    rw [Outline.extent?] at he
    rw [he]
  rw [hafter]
  exact (hsince.trans hc).closes hrest

theorem exists_run (h : Built tokens a b o) : ∃ e run, o.extent? = some e ∧
    run.head? = some e.first ∧ run.getLast? = some e.last ∧
    reals tokens a.cursor = run ++ reals tokens b.cursor := by
  obtain ⟨e, he, hlast, hsince⟩ := h
  obtain ⟨f, hf, -⟩ := hsince.advances
  obtain ⟨t, ht, hreal⟩ := hf.last hsince.lt
  obtain rfl : e.last = t := Option.some.inj (hlast.symm.trans ht)
  have hlt := hsince.lt
  have hcursor : b.cursor - 1 + 1 = b.cursor := by omega
  have hstretch := stretch_succ (i := a.cursor) (by omega) hlast
  rw [hcursor] at hstretch
  have hreals : reals tokens a.cursor =
      (stretch tokens a.cursor b.cursor).filter (fun t => !t.isTrivia) ++ reals tokens b.cursor :=
    (filter_stretch_append_reals hf.le).symm
  have hrun : (stretch tokens a.cursor b.cursor).filter (fun t => !t.isTrivia) =
      (stretch tokens a.cursor (b.cursor - 1)).filter (fun t => !t.isTrivia) ++ [e.last] := by
    rw [hstretch, List.filter_append]
    simp [hreal]
  refine ⟨e, _, he, ?_, ?_, hreals⟩
  · have hhead := congrArg List.head? (hreals.symm.trans (reals_of_next hsince.first))
    rw [List.head?_cons, hrun] at hhead
    rw [hrun]
    simpa using hhead
  · rw [hrun]
    simp

end Built

def Answers (tokens : Array Token) (a : Trail) (starts : Prop) (view : β → Outline Info) :
    Option β → Trail → Prop
  | none, b => b = a ∧ ¬starts
  | some x, b => Built tokens a b (view x) ∧ starts

/-- The rule builds nodes from index `n` on, where the tokens ahead are as `starts` says. -/
def Builds (tokens : Array Token) (flags : Flags) (n : Nat) (starts : Nat → Prop)
    (view : β → Outline Info) (p : Parser (Option β)) : Prop :=
  ∀ a, n ≤ a.cursor → Runs tokens flags a p (Answers tokens a (starts a.cursor) view)

def Makes (tokens : Array Token) (flags : Flags) (n : Nat) (view : β → List (Outline Info))
    (p : Parser β) : Prop :=
  ∀ a, n ≤ a.cursor → Runs tokens flags a p fun x b => Advances tokens a b [] (view x)

def Leads (tokens : Array Token) (sort : Kind → Bool) (i : Nat) : Prop :=
  ∃ t, tokens[nextReal tokens i]? = some t ∧ sort t.kind = true

theorem leads_iff {sort : Kind → Bool} {t : Token} (h : a.next? tokens = some t) :
    Leads tokens sort a.cursor ↔ sort t.kind = true := by
  constructor
  · rintro ⟨u, hu, hsort⟩
    obtain rfl : t = u := Option.some.inj (h.symm.trans hu)
    exact hsort
  · exact fun hsort => ⟨t, h, hsort⟩

theorem not_leads {sort : Kind → Bool} (h : a.next? tokens = none) :
    ¬Leads tokens sort a.cursor := by
  rintro ⟨u, hu, -⟩
  exact Option.some_ne_none u (hu.symm.trans h)

theorem not_leads_of_ne {sort : Kind → Bool} {k : Kind}
    (h : (a.next? tokens).map Token.kind ≠ some k) (hsort : ∀ k', sort k' = true → k' = k) :
    ¬Leads tokens sort a.cursor := by
  rintro ⟨t, ht, hkind⟩
  refine h ?_
  rw [Trail.next?, ht, Option.map_some, hsort t.kind hkind]

namespace Builds

variable {starts : Nat → Prop} {view : β → Outline Info} {p : Parser (Option β)}

theorem mono (h : Builds tokens flags n starts view p) {m : Nat} (hm : n ≤ m) :
    Builds tokens flags m starts view p := fun a ha => h a (Nat.le_trans hm ha)

theorem remembered [RuleNode β] (h : Builds tokens flags n starts view p) :
    Builds tokens flags n starts view (remembered p) := by
  intro a ha
  refine Runs.remembered (fun _ => h a ha) ((h { a with comments := [] } ha).weaken ?_)
  intro x? b hx
  cases x? with
  | none =>
    obtain ⟨rfl, hnot⟩ := hx
    refine ⟨?_, hnot⟩
    rw [Trail.behind, List.append_nil]
  | some x => exact ⟨hx.1.framed, hx.2⟩

theorem required (h : Builds tokens flags n starts view p) {code : Code} {standIn : β}
    (hcode : code.isPlain = true) (habsent : (view standIn).Absent) :
    Makes tokens flags n (fun x => [view x]) (required p code standIn) := by
  intro a ha
  refine (h a ha).bind fun x? b hx => ?_
  cases x? with
  | none =>
    obtain ⟨rfl, -⟩ := hx
    refine (runs_reportNext code []).bind fun _ c hc => .pure ?_
    obtain ⟨anchor, rfl⟩ := hc
    have hstand : Advances tokens b b [] [view standIn] :=
      .absent b fun o ho => List.mem_singleton.mp ho ▸ habsent
    exact hstand.next (.report b hcode)
  | some x => exact .pure hx.1.advances

end Builds

namespace Makes

variable {view : β → List (Outline Info)} {p : Parser β}

theorem mono (h : Makes tokens flags n view p) {m : Nat} (hm : n ≤ m) :
    Makes tokens flags m view p := fun a ha => h a (Nat.le_trans hm ha)

theorem since (h : Makes tokens flags (n + 1) view p)
    (hs : Since tokens a b first claimed nodes) (hn : n ≤ a.cursor) :
    Runs tokens flags b p fun x c => Since tokens a c first claimed (nodes ++ view x) :=
  (h b (Nat.lt_of_le_of_lt hn hs.lt)).weaken fun _ _ hx => hs.trans hx

theorem behind (h : Makes tokens flags n view p) (ha : Advances tokens a b [] nodes)
    (hn : n ≤ a.cursor) :
    Runs tokens flags b p fun x c => Advances tokens a c [] (nodes ++ view x) :=
  (h b (Nat.le_trans hn ha.le)).weaken fun _ _ hx => ha.trans hx

theorem underFlags {add remove : Flags} (h : Makes tokens (flags.adjust add remove) n view p) :
    Makes tokens flags n view (underFlags add remove p) := fun a ha => (h a ha).underFlags

end Makes

def Requires (tokens : Array Token) (a : Trail) (k : Kind) : Option Token → Trail → Prop
  | none, b => (a.next? tokens).map Token.kind ≠ some k ∧ Advances tokens a b [] []
  | some t, b => a.next? tokens = some t ∧ t.kind = k ∧ b = a.past tokens

theorem runs_require (k : Kind) : Runs tokens flags a (require k) (Requires tokens a k) := by
  refine (runs_accept k).bind fun t? b h => ?_
  cases t? with
  | none =>
    obtain ⟨rfl, hne⟩ := h
    refine (runs_reportNext _ _).bind fun _ c hc => .pure ⟨hne, ?_⟩
    obtain ⟨anchor, rfl⟩ := hc
    exact .report b rfl
  | some t => exact .pure h

theorem Requires.advances {k : Kind} {t? : Option Token} (h : Requires tokens a k t? b) :
    Advances tokens a b [] [] := by
  cases t? with
  | none => exact h.2
  | some t =>
    obtain ⟨ht, -, rfl⟩ := h
    exact .past ht

theorem makes_require (k : Kind) (n : Nat) : Makes tokens flags n (fun _ => []) (require k) :=
  fun _ _ => (runs_require k).weaken fun _ _ h => h.advances

theorem Since.require (h : Since tokens a b first claimed nodes) (k : Kind) :
    Runs tokens flags b (require k) fun _ c => Since tokens a c first claimed nodes :=
  (makes_require k 0 b (Nat.zero_le _)).weaken fun _ _ hx => h.next hx

theorem Advances.require (h : Advances tokens a b claimed nodes) (k : Kind) :
    Runs tokens flags b (Parser.require k) fun _ c => Advances tokens a c claimed nodes :=
  (makes_require k 0 b (Nat.zero_le _)).weaken fun _ _ hx => h.next hx

structure Opened (tokens : Array Token) (a b : Trail) (first : Token) (claimed : List Token) :
    Prop where
  walk : Walk tokens a b claimed [] {}
  first : a.next? tokens = some first
  cursor : b.cursor = nextReal tokens a.cursor + 1

theorem runs_opens (h : a.next? tokens = some first) :
    Runs tokens flags a consume fun _ b => Opened tokens a b first [] := by
  refine (runs_consume_next h).weaken fun _ b hb => ?_
  obtain ⟨-, rfl⟩ := hb
  exact ⟨.past h, h, rfl⟩

namespace Opened

theorem of_next (h : a.next? tokens = some first) : Opened tokens a (a.past tokens) first [] :=
  ⟨.past h, h, rfl⟩

theorem claims (h : Opened tokens a b first []) :
    Runs tokens flags b claimComments fun comments c => Opened tokens a c first comments := by
  refine runs_claimComments.weaken fun comments c hc => ?_
  obtain ⟨rfl, rfl⟩ := hc
  exact ⟨h.walk.claim, h.first, h.cursor⟩

theorem since (h : Opened tokens a b first claimed) : Since tokens a b first claimed [] :=
  ⟨.of_walk h.walk rfl, h.first, h.cursor ▸ Nat.lt_succ_self _⟩

theorem last (h : Opened tokens a b first claimed) : tokens[b.cursor - 1]? = some first := by
  rw [h.cursor]
  exact h.first

theorem built {form : Form} (h : Opened tokens a b first claimed) (text? : Option Text)
    (hform : form.isOrdinary = true) :
    Built tokens a b (.node form text? (some ⟨some (.single first), claimed⟩) []) :=
  h.since.built h.last text? hform

theorem close_identifier {own left : List Token} (h : Opened tokens a b first claimed)
    (hown : own ++ left = claimed) :
    Since tokens a b first left [(Grammar.identifierOf first own).outline] := by
  have hclosed : Walk tokens a b left [(Grammar.identifierOf first own).outline] {} :=
    h.walk.close hown h.first h.since.past h.last ⟨nofun, nofun⟩ (fun _ => rfl)
      fun _ hform => nomatch hform
  exact ⟨.of_walk hclosed rfl, h.first, h.since.past⟩

theorem identifier (h : Opened tokens a b first claimed) :
    Built tokens a b (Grammar.identifierOf first claimed).outline :=
  ⟨.single first, rfl, h.last, h.close_identifier (List.append_nil claimed)⟩

theorem named {form : Form} (h : Opened tokens a b first claimed) (hform : form.isOrdinary = true) :
    Built tokens a b (.node form none (some ⟨some (.single first), claimed⟩)
      [(Grammar.identifierOf first []).outline]) :=
  (h.close_identifier (List.nil_append claimed)).built h.last none hform

theorem stray (h : Opened tokens a b first claimed) :
    Since tokens a (b.reported (.stray .strayToken first)) first claimed [] := by
  refine ⟨.of_walk (h.walk.stray ?_) rfl, h.first, h.since.past⟩
  exact mem_stretch (le_nextReal tokens a.cursor) h.since.past h.first

end Opened

end Reparse
