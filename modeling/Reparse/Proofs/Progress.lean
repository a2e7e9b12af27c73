import Reparse.Proofs.Grammar.Agree.Statements

/-!
# Progress of loops

Every turn of every loop of the grammar either consumes a token or is the last one, whatever the
memo holds. A turn looks at the token ahead; where it goes on, it consumes that token, and nothing
that it runs afterwards goes back. An item of a series may match nothing, or be answered by an entry
of any length: then either it has moved, or the token that was ahead of it is skipped.
-/

namespace Reparse

open Reparse.Parser

variable {β γ σ : Type} {c : ParseContext} {s s' : ParseState}

def Ahead (c : ParseContext) (s : ParseState) : Prop :=
  ∃ t, c.tokens[nextReal c.tokens s.cursor]? = some t

theorem Ahead.lt_size (h : Ahead c s) : s.cursor < c.tokens.size := by
  obtain ⟨t, ht⟩ := h
  exact Nat.lt_of_le_of_lt (le_nextReal c.tokens s.cursor) (Array.getElem?_eq_some_iff.mp ht).1

theorem ahead_of_kind {k : Kind} (h : (nextKind.eval c s).1 = some k) : Ahead c s := by
  obtain ⟨t, ht, -⟩ := Option.map_eq_some_iff.mp h
  exact ⟨t, ht⟩

def nowhere : Window := ⟨#[], #[], id, 1, 1⟩

theorem alike_nowhere [Renumber β] {p : Parser β} {m : Nat} {Q : β → Nat → Prop} (h : Onward p) :
    Alike nowhere (From nowhere m) p p Q :=
  .of_past h (.inl (Nat.lt_of_lt_of_le Nat.one_pos (Nat.le_add_right 1 m)))

namespace Onward

theorem claimComments : Onward Parser.claimComments :=
  (alike_claimComments (w := nowhere) (P := fun _ => True)).onward

theorem accept (k : Kind) : Onward (accept k) := (alike_accept (w := nowhere) (m := 0) k).onward

theorem require (k : Kind) : Onward (require k) := (alike_require (w := nowhere) (m := 0) k).onward

theorem infoAfter (start? : Option Info) : Onward (infoAfter start?) :=
  (alike_infoAfter (w := nowhere) (m := 1) (Nat.le_refl 1) start?).onward

theorem skipStray (set : KindSet) (code : Code) : Onward (skipStray set code) :=
  (alike_skipStray (w := nowhere) (P := fun _ => True) set code).onward

theorem checkTrailing (shape : SeriesShape) (t : Token) : Onward (checkTrailing shape t) :=
  (alike_checkTrailing (w := nowhere) (P := fun _ => True) shape t).onward

theorem inBrackets {p : Parser β} (h : Onward p) : Onward (inBrackets p) := fun _ s => h _ s

theorem required {rule : Parser (Option β)} (h : Onward rule) (code : Code) (standIn : β) :
    Onward (required rule code standIn) := by
  refine h.bind fun o => ?_
  cases o with
  | some node => exact .pure node
  | none =>
    have hreport := alike_reportNext (w := nowhere) (P := fun _ => True) code []
    exact hreport.onward.bind fun _ => .pure standIn

theorem items [Renumber β] {item : Parser (Option β)} (h : Onward item) (shape : SeriesShape) :
    Onward (items shape item) :=
  (alike_items (w := nowhere) (m := 0) shape fun _ _ => alike_nowhere h).onward

end Onward

def Takes (p : Parser β) : Prop :=
  ∀ c s, Ahead c s → s.cursor < (p.eval c s).2.cursor

def Stops (p : Parser (Turn σ)) : Prop :=
  ∀ c s, ∃ b, (p.eval c s).1 = .done b

/-- Where the turn is not the last one, a token was ahead, and it has consumed something. -/
def Progresses (p : Parser (Turn σ)) : Prop :=
  ∀ c s b s', p.eval c s = (.again b, s') → Ahead c s ∧ s.cursor < s'.cursor

theorem takes_consume {q : Option Token → Parser β} (h : ∀ t?, Onward (q t?)) :
    Takes (consume >>= q) := by
  intro c s hahead
  obtain ⟨-, hvalue, hcursor⟩ := passes_consume (Nat.le_of_lt hahead.lt_size)
  obtain ⟨t, ht⟩ := hahead
  have honward := (h (consume.eval c s).1 c (consume.eval c s).2).1
  have hle := le_nextReal c.tokens s.cursor
  rw [hvalue, ht, Option.isSome_some, if_pos rfl] at hcursor
  rw [eval_bind]
  omega

theorem takes_skipStray (set : KindSet) (code : Code) : Takes (skipStray set code) := by
  refine takes_consume fun t? => ?_
  cases t? with
  | none => exact .pure ()
  | some t =>
    have hskip := alike_skipTo (w := nowhere) (m := 0) set
    refine (alike_reportStray (w := nowhere) (P := fun _ => True) t code).onward.bind fun _ =>
      hskip.onward.bind fun found => ?_
    cases found with
    | true => exact (Onward.accept .semicolon).bind fun _ => .pure ()
    | false => exact .pure ()

namespace Stops

theorem done (b : σ) : Stops (pure (.done b) : Parser (Turn σ)) := fun _ _ => ⟨b, rfl⟩

theorem bind {p : Parser β} {q : β → Parser (Turn σ)} (h : ∀ b, Stops (q b)) : Stops (p >>= q) :=
  fun c s => h (p.eval c s).1 c (p.eval c s).2

theorem ne_again {p : Parser (Turn σ)} (h : Stops p) {b : σ} (heval : p.eval c s = (.again b, s')) :
    False := by
  obtain ⟨b', hb'⟩ := h c s
  rw [heval] at hb'
  cases hb'

end Stops

namespace Progresses

variable {q : Option Kind → Parser (Turn σ)}

theorem nextKind (hnone : Stops (q none)) (hsome : ∀ k, Stops (q (some k)) ∨ Takes (q (some k))) :
    Progresses (nextKind >>= q) := by
  intro c s b s' h
  rw [eval_bind] at h
  cases hkind : (Parser.nextKind.eval c s).1 with
  | none =>
    rw [hkind] at h
    exact (hnone.ne_again h).elim
  | some k =>
    rw [hkind] at h
    have hahead := ahead_of_kind hkind
    rcases hsome k with hstops | htakes
    · exact (hstops.ne_again h).elim
    · have hlt := htakes c _ (show Ahead c (Parser.nextKind.eval c s).2 from hahead)
      rw [h] at hlt
      exact ⟨hahead, hlt⟩

theorem accept {k : Kind} {q : Option Token → Parser (Turn σ)} (hnone : Stops (q none))
    (hsome : ∀ t, Onward (q (some t))) : Progresses (accept k >>= q) := by
  refine nextKind
    (q := fun k? => (if decide (k? = some k) = true then consume else pure none) >>= q)
    (fun c s => hnone c s) fun k' => ?_
  by_cases hk : k' = k
  · refine .inr ?_
    simp only [hk, decide_true, if_true]
    intro c s hahead
    have htakes := takes_consume (q := fun t? => pure t?) (fun t? => .pure t?) c s hahead
    rw [bind_pure] at htakes
    obtain ⟨-, hvalue, -⟩ := passes_consume (Nat.le_of_lt hahead.lt_size)
    obtain ⟨t, ht⟩ := hahead
    rw [eval_bind, hvalue, ht]
    exact Nat.lt_of_lt_of_le htakes (hsome t c _).1
  · refine .inl ?_
    simp only [Option.some.injEq, hk, decide_false]
    exact fun c s => hnone c s

end Progresses

theorem exists_finishes {turn : σ → Parser (Turn σ)} (h : ∀ b, Progresses (turn b))
    (c : ParseContext) (b : σ) (s : ParseState) : ∃ b' s', Finishes turn c b s b' s' := by
  -- Every turn but the last leaves fewer tokens ahead.
  obtain ⟨n, hn⟩ : ∃ n, c.tokens.size - s.cursor < n := ⟨_, Nat.lt_succ_self _⟩
  induction n generalizing b s with
  | zero => exact absurd hn (Nat.not_lt_zero _)
  | succ n ih =>
    rcases hturn : (turn b).eval c s with ⟨b₁ | b₁, s₁⟩
    · obtain ⟨hahead, hlt⟩ := h b c s b₁ s₁ hturn
      have hsize := hahead.lt_size
      obtain ⟨b', s', hrest⟩ := ih b₁ s₁ (by omega)
      exact ⟨b', s', .again hturn hsize hlt hrest⟩
    · exact ⟨b₁, s₁, .done hturn⟩

theorem progresses_skipTurn (set : KindSet) (b : Bool) : Progresses (skipTurn set b) := by
  refine .nextKind (.done false) fun k => ?_
  dsimp only
  split
  · exact .inl (.done true)
  · exact .inr (takes_consume fun _ => .pure _)

theorem progresses_afterItem {shape : SeriesShape} {delimiter : Kind}
    (h : shape.delimiter = some delimiter) (moved : Bool) (b : Series β) :
    Progresses (afterItem shape moved b) := by
  simp only [afterItem, h]
  refine .accept ?_ fun t => (Onward.checkTrailing shape t).bind fun _ => .pure _
  exact .bind fun stop? => .done _

theorem progresses_seriesTurn (shape : SeriesShape) {item : Parser (Option β)} (hitem : Onward item)
    (b : Series β) : Progresses (seriesTurn shape item b) := by
  intro c s b' s' h
  cases hkind : (nextKind.eval c s).1 with
  | none =>
    rw [eval_seriesTurn_none hkind] at h
    cases h
  | some k =>
    have hahead := ahead_of_kind hkind
    refine ⟨hahead, ?_⟩
    by_cases hk : shape.terminator = some k
    · rw [eval_seriesTurn_terminator hkind hk] at h
      cases h
    · have honward : s.cursor ≤ (item.eval c (looked c.tokens s)).2.cursor :=
        (hitem c (looked c.tokens s)).1
      rw [eval_seriesTurn_item hkind hk] at h
      generalize item.eval c (looked c.tokens s) = r at h honward
      obtain ⟨_ | value, s₁⟩ := r
      · cases hresume : shape.resumeSet? with
        | none =>
          simp only [hresume] at h
          cases h
        | some set =>
          simp only [hresume] at h
          cases h
          -- Either the item has moved, or the token that was ahead of it is skipped.
          by_cases hahead₁ : Ahead c s₁
          · exact Nat.lt_of_le_of_lt honward (takes_skipStray set shape.stray c s₁ hahead₁)
          · obtain ⟨t, ht⟩ := hahead
            have hnone := Option.eq_none_iff_forall_ne_some.mpr fun t ht => hahead₁ ⟨t, ht⟩
            exact Nat.lt_of_lt_of_le (lt_of_nextReal honward ht hnone)
              (Onward.skipStray set shape.stray c s₁).1
      · cases hdelimiter : shape.delimiter with
        | none =>
          simp only [afterItem, hdelimiter, eval_pure] at h
          split at h
          next hmoved =>
            cases h
            exact Nat.lt_of_le_of_ne honward (Ne.symm (of_decide_eq_true hmoved))
          next => cases h
        | some delimiter =>
          exact Nat.lt_of_le_of_lt honward (progresses_afterItem hdelimiter _ _ c s₁ b' s' h).2

namespace Grammar

theorem onward_requiredIdentifier : Onward requiredIdentifier :=
  (alike_requiredIdentifier (w := nowhere) (m := 0)).onward

theorem progresses_arrayTurn (element : TypeExpression Info) : Progresses (arrayTurn element) :=
  .accept (.done element) fun _ => (Onward.require _).bind fun _ => (Onward.infoAfter _).bind
    fun _ => .pure _

theorem progresses_memberTurn {type : Parser (Option (TypeExpression Info))} (h : Onward type)
    (members : Array (TypeExpression Info)) : Progresses (memberTurn type members) := by
  have hsingle : Onward (arrayOrSingle type) :=
    (alike_arrayOrSingle (w := nowhere) (m := 0) fun _ _ => alike_nowhere h).onward
  exact .accept (.done members) fun _ => (hsingle.required _ _).bind fun _ => .pure _

theorem progresses_postfixTurn {expression : ExpressionRule} (h : Onward expression)
    (base : Expression Info) : Progresses (postfixTurn expression base) := by
  refine .nextKind (.done base) fun k => ?_
  have hclose : ∀ (mark : Kind) (build : Info → Expression Info), Onward (do
      let _ ← require mark
      return Turn.again (build (← infoAfter base.info?))) := fun mark build =>
    (Onward.require mark).bind fun _ => (Onward.infoAfter _).bind fun _ => .pure _
  split
  · exact .inr (takes_consume fun _ => onward_requiredIdentifier.bind fun _ =>
      (Onward.infoAfter _).bind fun _ => .pure _)
  · exact .inr (takes_consume fun _ => (h.items _).inBrackets.bind fun arguments =>
      hclose _ (.invoke base arguments))
  · exact .inr (takes_consume fun _ => (h.required _ _).inBrackets.bind fun place =>
      hclose _ (.index base place))
  · exact .inl (.done base)

theorem progresses_signTurn (found : List Sign) : Progresses (signTurn found) := by
  refine .nextKind (.done found) fun k => ?_
  simp only [Option.bind_some]
  cases UnaryOperator.ofKind? k with
  | none => exact .inl (.done found)
  | some operator =>
    refine .inr (takes_consume fun t? => ?_)
    cases t? with
    | none => exact .pure _
    | some token => exact Onward.claimComments.bind fun _ => .pure _

theorem progresses_chainTurn (level : Precedence) {operand : ExpressionRule} (h : Onward operand)
    (chain : Chain) : Progresses (chainTurn level operand chain) := by
  refine .nextKind (.done chain) fun k => ?_
  simp only [Option.bind_some]
  cases BinaryOperator.ofKind? k with
  | none => exact .inl (.done chain)
  | some operator =>
    dsimp only
    split
    · exact .inl (.done chain)
    · refine .inr (takes_consume fun t? => ?_)
      cases t? with
      | none => exact .pure _
      | some token =>
        have hwarn : Onward (warnMixed chain operator token) :=
          (alike_warnMixed (w := nowhere) (P := fun _ => True) chain operator token).onward
        exact hwarn.bind fun _ => (h.required _ _).bind fun _ => (Onward.infoAfter _).bind
          fun _ => .pure _

inductive Repeated : {β : Type} → Parser (Option β) → Prop
  | typeExpression : Repeated typeExpression
  | typeWithin (depth : Nat) : Repeated (typeWithin depth)
  | expression : Repeated expression
  | expressionWithin (depth : Nat) : Repeated (expressionWithin depth)
  | statement : Repeated statement
  | statementWithin (depth : Nat) : Repeated (statementWithin depth)
  | definition : Repeated definition
  | parameter : Repeated parameter
  | field {β : Type} {rule : Parser (Option β)} (code : Code) (standIn : β) :
      Repeated rule → Repeated (field (required rule code standIn) standIn)
  | postfixed {rule : ExpressionRule} : Repeated rule → Repeated (postfixed rule)
  | unary {rule : ExpressionRule} : Repeated rule → Repeated (unary rule)
  | binary (level : Precedence) {rule : ExpressionRule} :
      Repeated rule → Repeated (binary level rule)

theorem onward_field {value : Parser β} {standIn : β} (h : Onward value) :
    Onward (field value standIn) := by
  have hidentifier := alike_identifier (w := nowhere) (m := 0)
  refine hidentifier.onward.bind fun name? => ?_
  cases name? with
  | none => exact .pure none
  | some name =>
    refine Onward.bind ?_ fun _ => (Onward.infoAfter _).bind fun _ => .pure _
    refine (Onward.require .colon).bind fun t? => ?_
    cases t? with
    | none => exact .pure standIn
    | some t => exact h

theorem Repeated.onward {rule : Parser (Option β)} (h : Repeated rule) : Onward rule := by
  induction h with
  | typeExpression => exact (alike_typeExpression (w := nowhere) (m := 0)).onward
  | typeWithin depth => exact nesting_type.onward depth
  | expression => exact (alike_expression (w := nowhere) (m := 0)).onward
  | expressionWithin depth => exact nesting_expression.onward depth
  | statement => exact onward_statement
  | statementWithin depth => exact nesting_statement.onward depth
  | definition => exact (alike_definition (w := nowhere) (m := 0)).onward
  | parameter => exact (alike_parameter (w := nowhere) (m := 0)).onward
  | field code standIn _ ih => exact onward_field (ih.required code standIn)
  | postfixed _ ih =>
    exact (alike_postfixed (w := nowhere) (m := 0) fun _ _ => alike_nowhere ih).onward
  | unary _ ih => exact (alike_unary (w := nowhere) (m := 0) fun _ => alike_nowhere ih).onward
  | binary level _ ih =>
    exact (alike_binary (w := nowhere) (m := 0) level fun _ => alike_nowhere ih).onward

/-- The loops of the grammar, each by its turn. -/
inductive Loop : {σ : Type} → (σ → Parser (Turn σ)) → Prop
  | skip (set : KindSet) : Loop (skipTurn set)
  | series (shape : SeriesShape) {β : Type} {item : Parser (Option β)} :
      Repeated item → Loop (seriesTurn shape item)
  | array : Loop arrayTurn
  | member {type : Parser (Option (TypeExpression Info))} : Repeated type → Loop (memberTurn type)
  | behind {expression : ExpressionRule} : Repeated expression → Loop (postfixTurn expression)
  | sign : Loop signTurn
  | chain (level : Precedence) {operand : ExpressionRule} :
      Repeated operand → Loop (chainTurn level operand)

theorem Loop.progresses {turn : σ → Parser (Turn σ)} (h : Loop turn) (b : σ) :
    Progresses (turn b) := by
  cases h with
  | skip set => exact progresses_skipTurn set b
  | series shape hitem => exact progresses_seriesTurn shape hitem.onward b
  | array => exact progresses_arrayTurn b
  | member htype => exact progresses_memberTurn htype.onward b
  | behind hexpression => exact progresses_postfixTurn hexpression.onward b
  | sign => exact progresses_signTurn b
  | chain level hoperand => exact progresses_chainTurn level hoperand.onward b

end Grammar

end Reparse
