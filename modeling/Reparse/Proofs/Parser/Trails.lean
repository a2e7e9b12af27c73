import Reparse.Proofs.Parser.Reads

/-!
# Trails

Of the state of a bare run three things matter for the tree it builds: how far the tokens have been
consumed, which comments wait for a node to claim them, and what has been reported. What a parser
does to these is said of all runs, on well formed input or not, so that it holds of every tree.
-/

namespace Reparse

open Reparse.Parser

variable {β γ σ : Type}

def Token.isComment (t : Token) : Bool := t.kind = .comment

def stretch (tokens : Array Token) (i j : Nat) : List Token := (tokens.toList.take j).drop i

section Stretch

variable {tokens : Array Token} {i j k : Nat} {t : Token}

@[simp] theorem stretch_self (tokens : Array Token) (i : Nat) : stretch tokens i i = [] :=
  List.drop_eq_nil_of_le (List.length_take_le i _)

theorem stretch_append (hij : i ≤ j) (hjk : j ≤ k) :
    stretch tokens i j ++ stretch tokens j k = stretch tokens i k := by
  have htake : tokens.toList.take j = (tokens.toList.take k).take j := by
    rw [List.take_take, Nat.min_eq_left hjk]
  unfold stretch
  rw [htake]
  have hsplit := List.take_append_drop (j - i) ((tokens.toList.take k).drop i)
  rwa [List.drop_drop, Nat.add_sub_cancel' hij, List.take_drop, Nat.add_sub_cancel' hij] at hsplit

theorem stretch_succ (hij : i ≤ j) (ht : tokens[j]? = some t) :
    stretch tokens i (j + 1) = stretch tokens i j ++ [t] := by
  rw [← stretch_append hij (Nat.le_succ j)]
  congr 1
  obtain ⟨hlt, rfl⟩ := Array.getElem?_eq_some_iff.mp ht
  have htake := List.take_succ_eq_append_getElem (i := j) (l := tokens.toList) hlt
  rw [stretch, htake, List.drop_append_of_le_length (by simp; omega),
    List.drop_eq_nil_of_le (List.length_take_le j _)]
  rfl

theorem stretch_append_drop (hij : i ≤ j) :
    stretch tokens i j ++ tokens.toList.drop j = tokens.toList.drop i := by
  have hsplit := List.take_append_drop (j - i) (tokens.toList.drop i)
  rwa [List.drop_drop, Nat.add_sub_cancel' hij, List.take_drop, Nat.add_sub_cancel' hij] at hsplit

theorem stretch_eq_drop (hij : i ≤ j) (hj : tokens[j]? = none) :
    stretch tokens i j = tokens.toList.drop i := by
  have hempty : tokens.toList.drop j = [] :=
    List.drop_of_length_le (Array.getElem?_eq_none_iff.mp hj)
  rw [← stretch_append_drop hij, hempty, List.append_nil]

theorem filter_stretch_append_reals (hij : i ≤ j) :
    (stretch tokens i j).filter (fun t => !t.isTrivia) ++ reals tokens j = reals tokens i := by
  rw [reals, reals, ← List.filter_append, stretch_append_drop hij]

theorem mem_stretch (hik : i ≤ k) (hkj : k < j) (ht : tokens[k]? = some t) :
    t ∈ stretch tokens i j := by
  rw [← stretch_append (Nat.le_succ_of_le hik) hkj, stretch_succ hik ht]
  simp

theorem stretch_sublist (tokens : Array Token) (i j : Nat) :
    (stretch tokens i j).Sublist tokens.toList :=
  (List.drop_sublist ..).trans (List.take_sublist ..)

end Stretch

structure Trail where
  cursor : Nat
  comments : List Token
  reports : List (Report Anchor)

def ParseState.trail (s : ParseState) : Trail := ⟨s.cursor, s.comments, s.reports.toList⟩

/-- The states of bare runs. -/
structure Prepared (tokens : Array Token) (s : ParseState) : Prop where
  read : s.read = tokens.size
  memo : s.memo.Keeps fun _ e => e.watermark = 0
  within : s.cursor ≤ tokens.size

/-- From the trail `a` on, a bare run of the parser ends with a result and a trail of which `Q`
holds. -/
def Runs (tokens : Array Token) (flags : Flags) (a : Trail) (p : Parser β)
    (Q : β → Trail → Prop) : Prop :=
  ∀ s, Prepared tokens s → s.trail = a →
    Prepared tokens (p.eval (.bare tokens flags) s).2 ∧
      Q (p.eval (.bare tokens flags) s).1 (p.eval (.bare tokens flags) s).2.trail

variable {tokens : Array Token} {flags : Flags} {a b : Trail}

namespace Runs

variable {p : Parser β} {q : β → Parser γ} {Q Q' : β → Trail → Prop} {R : γ → Trail → Prop}

theorem pure {x : β} (h : Q x a) : Runs tokens flags a (Pure.pure x) Q := by
  rintro s hs rfl
  exact ⟨hs, h⟩

theorem bind (hp : Runs tokens flags a p Q)
    (hq : ∀ x b, Q x b → Runs tokens flags b (q x) R) : Runs tokens flags a (p >>= q) R := by
  intro s hs ha
  obtain ⟨hs', hQ⟩ := hp s hs ha
  exact hq _ _ hQ _ hs' rfl

theorem map {f : β → γ} (hp : Runs tokens flags a p Q) (hR : ∀ x b, Q x b → R (f x) b) :
    Runs tokens flags a (f <$> p) R := by
  intro s hs ha
  obtain ⟨hs', hQ⟩ := hp s hs ha
  exact ⟨hs', hR _ _ hQ⟩

theorem weaken (hp : Runs tokens flags a p Q) (hQ : ∀ x b, Q x b → Q' x b) :
    Runs tokens flags a p Q' := by
  intro s hs ha
  obtain ⟨hs', h⟩ := hp s hs ha
  exact ⟨hs', hQ _ _ h⟩

theorem within (h : a.cursor ≤ tokens.size → Runs tokens flags a p Q) :
    Runs tokens flags a p Q := by
  rintro s hs rfl
  exact h hs.within s hs rfl

theorem traced (hp : Runs tokens flags a p Q) : Runs tokens flags a p fun x b =>
    Q x b ∧ ∃ s s', Prepared tokens s ∧ p.eval (.bare tokens flags) s = (x, s') ∧
      s'.trail = b := by
  intro s hs ha
  obtain ⟨hs', h⟩ := hp s hs ha
  exact ⟨hs', h, s, _, hs, rfl, rfl⟩

theorem underFlags {add remove : Flags} (hp : Runs tokens (flags.adjust add remove) a p Q) :
    Runs tokens flags a (underFlags add remove p) Q :=
  fun s hs ha => hp s hs ha

theorem of_still (hstate : ∀ s, Prepared tokens s →
    Prepared tokens (p.eval (.bare tokens flags) s).2 ∧
      (p.eval (.bare tokens flags) s).2.trail = s.trail)
    (hQ : ∀ s, Prepared tokens s → s.trail = a → Q (p.eval (.bare tokens flags) s).1 a) :
    Runs tokens flags a p Q := by
  rintro s hs rfl
  obtain ⟨hs', htrail⟩ := hstate s hs
  refine ⟨hs', ?_⟩
  rw [htrail]
  exact hQ s hs rfl

end Runs

def Trail.next? (tokens : Array Token) (a : Trail) : Option Token :=
  tokens[nextReal tokens a.cursor]?

theorem prepared_looked {s : ParseState} (hs : Prepared tokens s) :
    Prepared tokens (looked tokens s) :=
  ⟨looked_read hs.read, hs.memo, hs.within⟩

theorem runs_nextToken : Runs tokens flags a nextToken fun t? b => b = a ∧ t? = a.next? tokens := by
  refine .of_still (fun s hs => ⟨prepared_looked hs, rfl⟩) ?_
  rintro s - rfl
  exact ⟨rfl, rfl⟩

theorem runs_nextKind :
    Runs tokens flags a nextKind fun k? b => b = a ∧ k? = (a.next? tokens).map Token.kind :=
  runs_nextToken.bind fun _ _ h => .pure ⟨h.1, congrArg _ h.2⟩

theorem runs_isNext (k : Kind) : Runs tokens flags a (isNext k) fun x b =>
    b = a ∧ x = decide ((a.next? tokens).map Token.kind = some k) :=
  runs_nextKind.bind fun _ _ h => .pure ⟨h.1, by rw [h.2]⟩

theorem runs_flags : Runs tokens flags a Parser.flags fun f b => b = a ∧ f = flags := by
  rintro s hs rfl
  exact ⟨hs, rfl, rfl⟩

theorem runs_read : Runs tokens flags a (read : Parser ParseContext) fun c b =>
    b = a ∧ c = .bare tokens flags := by
  rintro s hs rfl
  exact ⟨hs, rfl, rfl⟩

def Trail.upTo (tokens : Array Token) (a : Trail) (j : Nat) : Trail :=
  { a with
    cursor := j
    comments := a.comments ++ (stretch tokens a.cursor j).filter Token.isComment }

def Trail.past (tokens : Array Token) (a : Trail) : Trail :=
  a.upTo tokens (nextReal tokens a.cursor + 1)

theorem trail_consumeMany {n : Nat} {s : ParseState} (h : s.cursor + n ≤ tokens.size) :
    ((consumeMany n).eval (.bare tokens flags) s).2.trail =
      s.trail.upTo tokens (s.cursor + n) := by
  induction n generalizing s with
  | zero =>
    simp only [Trail.upTo, Nat.add_zero, ParseState.trail, stretch_self, List.filter_nil,
      List.append_nil]
    rfl
  | succ n ih =>
    have hlt : s.cursor < tokens.size := by omega
    have ht : tokens[s.cursor]? = some tokens[s.cursor] := Array.getElem?_eq_getElem hlt
    have hfirst := stretch_succ (Nat.le_refl s.cursor) ht
    have hcursor : (past tokens[s.cursor] s).cursor = s.cursor + 1 := rfl
    rw [eval_consumeMany_succ (c := .bare tokens flags) n ht, ih (by rw [hcursor]; omega),
      hcursor, Nat.add_right_comm, Nat.add_assoc]
    rw [stretch_self, List.nil_append] at hfirst
    simp only [Trail.upTo, ParseState.trail, past, Trail.mk.injEq, true_and, and_true]
    rw [← stretch_append (i := s.cursor) (j := s.cursor + 1) (by omega) (by omega), hfirst,
      List.filter_append]
    unfold Token.isComment
    by_cases hcomment : tokens[s.cursor].kind = .comment
    · simp [hcomment]
    · simp [hcomment]

theorem prepared_consumeMany {n : Nat} {s : ParseState} (hs : Prepared tokens s)
    (h : s.cursor + n ≤ tokens.size) :
    Prepared tokens ((consumeMany n).eval (.bare tokens flags) s).2 := by
  obtain ⟨hcursor, hread, hmemo⟩ := eval_consumeMany (c := .bare tokens flags) h
  exact ⟨hread.trans hs.read, hmemo _ hs.memo, hcursor ▸ h⟩

def Consumes (tokens : Array Token) (a : Trail) : Option Token → Trail → Prop
  | none, b => a.next? tokens = none ∧ b = a
  | some t, b => a.next? tokens = some t ∧ b = a.past tokens

theorem runs_consume : Runs tokens flags a consume (Consumes tokens a) := by
  rintro s hs rfl
  rw [eval_consume]
  simp only [ParseContext.bare_tokens]
  cases ht : tokens[nextReal tokens s.cursor]? with
  | none => exact ⟨prepared_looked hs, ht, rfl⟩
  | some t =>
    have hlt : nextReal tokens s.cursor < tokens.size := (Array.getElem?_eq_some_iff.mp ht).1
    have hle := le_nextReal tokens s.cursor
    have hend : (looked tokens s).cursor + (nextReal tokens s.cursor + 1 - s.cursor) =
        nextReal tokens s.cursor + 1 := by
      rw [looked_cursor]
      omega
    have hsteps : (looked tokens s).cursor + (nextReal tokens s.cursor + 1 - s.cursor) ≤
        tokens.size := by
      omega
    refine ⟨prepared_consumeMany (prepared_looked hs) hsteps, ht, ?_⟩
    rw [trail_consumeMany hsteps, hend]
    rfl

theorem runs_consume_next {t : Token} (h : a.next? tokens = some t) :
    Runs tokens flags a consume fun t? b => t? = some t ∧ b = a.past tokens := by
  refine runs_consume.weaken fun t? b hb => ?_
  cases t? with
  | none => exact absurd (hb.1.symm.trans h) (Option.some_ne_none t).symm
  | some u => exact ⟨hb.1.symm.trans h, hb.2⟩

theorem runs_consumeTrivia : Runs tokens flags a consumeTrivia fun _ b =>
    b = a.upTo tokens (nextReal tokens a.cursor) := by
  rintro s hs rfl
  rw [eval_consumeTrivia]
  simp only [ParseContext.bare_tokens]
  have hle := le_nextReal tokens s.cursor
  have hsize := nextReal_le_size hs.within
  have hend : (looked tokens s).cursor + (nextReal tokens s.cursor - s.cursor) =
      nextReal tokens s.cursor := by
    rw [looked_cursor]
    omega
  have hsteps : (looked tokens s).cursor + (nextReal tokens s.cursor - s.cursor) ≤
      tokens.size := by
    omega
  refine ⟨prepared_consumeMany (prepared_looked hs) hsteps, ?_⟩
  rw [trail_consumeMany hsteps, hend]
  rfl

def Accepts (tokens : Array Token) (a : Trail) (k : Kind) : Option Token → Trail → Prop
  | none, b => b = a ∧ (a.next? tokens).map Token.kind ≠ some k
  | some t, b => a.next? tokens = some t ∧ t.kind = k ∧ b = a.past tokens

theorem runs_accept (k : Kind) : Runs tokens flags a (accept k) (Accepts tokens a k) := by
  refine (runs_isNext k).bind fun x b h => ?_
  obtain ⟨rfl, rfl⟩ := h
  split
  next hk =>
    obtain ⟨t, ht, hkind⟩ := Option.map_eq_some_iff.mp (of_decide_eq_true hk)
    refine (runs_consume_next ht).weaken fun t? c h => ?_
    obtain ⟨rfl, rfl⟩ := h
    exact ⟨ht, hkind, rfl⟩
  next hk => exact .pure ⟨rfl, fun heq => hk (decide_eq_true heq)⟩

theorem runs_claimComments : Runs tokens flags a claimComments fun comments b =>
    comments = a.comments ∧ b = { a with comments := [] } := by
  rintro s hs rfl
  exact ⟨⟨hs.read, hs.memo, hs.within⟩, rfl, rfl⟩

def Trail.reported (a : Trail) (r : Report Anchor) : Trail :=
  { a with reports := a.reports ++ [r] }

theorem runs_report (anchor : Option Anchor) (code : Code) (args : List Text) :
    Runs tokens flags a (report anchor code args) fun _ b =>
      b = a.reported ⟨code, args, anchor⟩ := by
  rintro s hs rfl
  refine ⟨⟨hs.read, hs.memo, hs.within⟩, ?_⟩
  simp only [eval_report, ParseState.trail, Trail.reported, Array.toList_push]

theorem runs_reportNext (code : Code) (args : List Text) :
    Runs tokens flags a (reportNext code args) fun _ b =>
      ∃ anchor, b = a.reported ⟨code, args, anchor⟩ := by
  refine runs_nextToken.bind fun t? b h => ?_
  obtain ⟨rfl, -⟩ := h
  cases t? with
  | some t => exact .weaken (runs_report _ _ _) fun _ _ h => ⟨_, h⟩
  | none =>
    refine runs_read.bind fun c b h => ?_
    obtain ⟨rfl, -⟩ := h
    exact .weaken (runs_report _ _ _) fun _ _ h => ⟨_, h⟩

theorem runs_lastConsumed : Runs tokens flags a lastConsumed fun t? b =>
    b = a ∧ (0 < a.cursor → t? = tokens[a.cursor - 1]?) := by
  rintro s hs rfl
  rw [eval_lastConsumed]
  refine ⟨hs, rfl, fun hpos => ?_⟩
  have hread : s.cursor ≤ s.read := hs.read ▸ hs.within
  have hpos : 0 < s.cursor := hpos
  simp [hpos, hread]
  rfl

theorem runs_extentFrom (first : Token) (h : 0 < a.cursor) :
    Runs tokens flags a (extentFrom first) fun extent? b => b = a ∧
      extent? = (tokens[a.cursor - 1]?).map fun last => ⟨first, last⟩ :=
  runs_lastConsumed.map fun _ _ ht => ⟨ht.1, by rw [ht.2 h]⟩

theorem Runs.tentatively {p : Parser β} {Q : β → Trail → Prop}
    (hp : Runs tokens flags { a with comments := [] } p Q) :
    Runs tokens flags a (tentatively p) fun x b => b = a ∧ ∃ c, Q x c := by
  rintro s hs rfl
  rw [eval_tentatively]
  obtain ⟨hs', hQ⟩ := hp { s with comments := [] } ⟨hs.read, hs.memo, hs.within⟩ rfl
  exact ⟨⟨hs'.read, hs'.memo, hs.within⟩, rfl, _, hQ⟩

theorem Runs.watched {p : Parser β} {Q : β → Trail → Prop} (hp : Runs tokens flags a p Q) :
    Runs tokens flags a (watched p) fun x b => Q x.1 b ∧ x.2 = decide (b.cursor ≠ a.cursor) := by
  rintro s hs rfl
  rw [eval_watched]
  obtain ⟨hs', hQ⟩ := hp s hs rfl
  exact ⟨hs', hQ, rfl⟩

def Trail.behind (outer inner : Trail) : Trail :=
  { inner with comments := outer.comments ++ inner.comments }

theorem Runs.remembered [RuleNode β] {body : Parser (Option β)} {Q : Option β → Trail → Prop}
    (hbody : a.next? tokens = none → Runs tokens flags a body Q)
    (hframe : Runs tokens flags { a with comments := [] } body fun x b => Q x (a.behind b)) :
    Runs tokens flags a (remembered body) Q := by
  rintro s hs rfl
  cases ht : tokens[s.cursor]? with
  | none =>
    have hend : s.cursor = tokens.size := by
      have hle := Array.getElem?_eq_none_iff.mp ht
      have hwithin := hs.within
      omega
    have hnext : s.trail.next? tokens = none := by
      have hle := le_nextReal tokens s.cursor
      exact Array.getElem?_eq_none (hend ▸ hle)
    have hread := readPast_eq (c := .bare tokens flags) s.cursor hs.read
    rw [eval_remembered_none (c := .bare tokens flags) ht, hread]
    exact hbody hnext s hs rfl
  | some t =>
    -- No entry of a bare run can be replayed, so the body runs, in a frame of its own.
    rw [eval_remembered_bare body ht hs.read hs.memo]
    obtain ⟨hs', hQ⟩ := hframe (opened s.cursor s) ⟨hs.read, hs.memo, hs.within⟩ rfl
    exact ⟨⟨hs'.read, hs'.memo.insert (watermark_bare hs'.read), hs'.within⟩, hQ⟩

def TurnsTo (start : Nat) (I Q : σ → Trail → Prop) : Turn σ → Trail → Prop
  | .again x, b => I x b ∧ start < b.cursor
  | .done x, b => Q x b

theorem runs_iterate {turn : σ → Parser (Turn σ)} {I Q : σ → Trail → Prop}
    (hturn : ∀ x a, I x a → Runs tokens flags a (turn x) (TurnsTo a.cursor I Q)) (n : Nat) {x : σ}
    (hfuel : tokens.size < a.cursor + n) (hx : I x a) :
    Runs tokens flags a (iterate turn n x) Q := by
  induction n generalizing x a with
  | zero => exact .within fun hle => absurd hfuel (Nat.not_lt.mpr hle)
  | succ n ih =>
    rw [iterate_succ]
    refine (hturn x a hx).bind fun t b h => ?_
    cases t with
    | again y => exact ih (by have hlt := h.2; omega) h.1
    | done y => exact .pure h

theorem runs_loop {turn : σ → Parser (Turn σ)} {I Q : σ → Trail → Prop}
    (hturn : ∀ x a, I x a → Runs tokens flags a (turn x) (TurnsTo a.cursor I Q)) {x : σ}
    (hx : I x a) : Runs tokens flags a (loop turn x) Q := by
  rintro s hs rfl
  rw [eval_loop]
  refine runs_iterate hturn _ ?_ hx s hs rfl
  change tokens.size < s.cursor + (tokens.size - s.cursor + 1)
  omega

end Reparse
