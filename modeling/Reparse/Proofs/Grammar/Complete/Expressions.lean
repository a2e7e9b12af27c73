import Reparse.Proofs.Grammar.Complete.Types
import Reparse.Proofs.Grammar.Sound.Expressions

/-!
# Completeness of the grammar of expressions

Wherever an expression is written that is fit for its place, and what follows does not go on with
it, the rule for expressions finds it. What leans to the left is taken apart into the loop that
builds it: an operand and turns behind it.
-/

namespace Reparse

open Reparse.Parser

variable {α β : Type} {tokens : Array Token} {flags : Flags} {before mid after rest : List Word}
  {w : Word} {bound : Nat}

theorem Precedence.eq_of_strength {p q : Precedence} (h : p.strength = q.strength) : p = q := by
  cases p <;> cases q <;> first | rfl | cases h

theorem Precedence.strength_lt (p : Precedence) : p.strength < 4 := by
  cases p <;> decide

namespace Expression

def Parsed (e : Expression Unit) (n : Expression Info) : Prop :=
  n.map Info.erase = e ∧ (n.info?.bind Info.extent?).isSome = true

def leads : List Kind :=
  [.integer, .float, .string, .trueWord, .falseWord, .nullWord, .identifier, .leftParen,
    .leftBracket, .leftBrace]

theorem ofKind?_lead : ∀ k ∈ leads, UnaryOperator.ofKind? k = none := by decide

def isAtom : Expression α → Bool
  | .literal .. | .name .. | .paren .. | .array .. | .object .. => true
  | _ => false

theorem isGrammatical_of_areGrammatical {es : List (Expression α)} (h : areGrammatical es = true) :
    ∀ e ∈ es, e.isGrammatical = true := by
  induction es with
  | nil => exact fun _ he => absurd he List.not_mem_nil
  | cons e es ih =>
    simp only [areGrammatical, Bool.and_eq_true] at h
    exact List.forall_mem_cons.mpr ⟨h.1, ih h.2⟩

theorem isGrammatical_of_areFields {fields : List (Field α (Expression α))}
    (h : areFields fields = true) :
    ∀ x ∈ fields, x.name.isNamed = true ∧ x.value.isGrammatical = true := by
  induction fields with
  | nil => exact fun _ hx => absurd hx List.not_mem_nil
  | cons x fields ih =>
    simp only [areFields, Bool.and_eq_true] at h
    exact List.forall_mem_cons.mpr ⟨h.1, ih h.2⟩

theorem fits_of_isGrammatical {e : Expression α} (h : e.isGrammatical = true)
    (hopen : flags.noObject = false) : e.Fits flags 0 :=
  ⟨h, Nat.zero_le _, fun hno => absurd (hopen.symm.trans hno) Bool.false_ne_true⟩

theorem noObject_inBrackets (flags : Flags) :
    (flags.adjust {} { noObject := true }).noObject = false := by
  simp [Flags.adjust]

end Expression

theorem Literal.lead_mem {value : Literal} (h : Spells value.spelling before after) :
    ∃ k ∈ Expression.leads, lead before = some k ∧ k ≠ .identifier ∧ k ≠ .leftBrace := by
  cases value with
  | integer text =>
    obtain ⟨_, rfl, -⟩ := Spells.word_iff.mp h
    exact ⟨.integer, by decide, rfl, by decide⟩
  | float text =>
    obtain ⟨_, rfl, -⟩ := Spells.word_iff.mp h
    exact ⟨.float, by decide, rfl, by decide⟩
  | string contents =>
    cases h
    exact ⟨.string, by decide, rfl, by decide⟩
  | boolean value =>
    obtain ⟨_, rfl, -⟩ := Spells.mark_iff.mp h
    cases value
    · exact ⟨.falseWord, by decide, rfl, by decide⟩
    · exact ⟨.trueWord, by decide, rfl, by decide⟩
  | null =>
    obtain ⟨_, rfl, -⟩ := Spells.mark_iff.mp h
    exact ⟨.nullWord, by decide, rfl, by decide⟩

namespace Expression

theorem lead_mem (e : Expression Unit) (he : e.isGrammatical = true) {before after : List Word}
    (h : Spells e.spelling before after) :
    ∃ k, lead before = some k ∧ (k ∈ leads ∨ e.strength < 5 ∧ (k = .minus ∨ k = .bang)) := by
  cases e with
  | missing => cases he
  | literal value info =>
    obtain ⟨k, hk, hlead, -⟩ := Literal.lead_mem h
    exact ⟨k, hlead, .inl hk⟩
  | name identifier info =>
    obtain ⟨_, -, rfl⟩ := Identifier.spells he h
    exact ⟨.identifier, rfl, .inl (by decide)⟩
  | binary operator left right info =>
    simp only [isGrammatical, Bool.and_eq_true] at he
    obtain ⟨mid, hleft, -⟩ := h.split
    obtain ⟨k, hlead, hk⟩ := lead_mem left he.1.1.1 hleft
    refine ⟨k, hlead, hk.imp_right fun h => ⟨?_, h.2⟩⟩
    show operator.precedence.strength < 5
    cases operator <;> decide
  | unary operator operand info =>
    obtain ⟨_, rfl, -⟩ := Spells.mark_iff.mp h
    refine ⟨_, rfl, .inr ⟨Nat.lt_succ_self 4, ?_⟩⟩
    cases operator
    · exact .inl rfl
    · exact .inr rfl
  | member base field info =>
    simp only [isGrammatical, Bool.and_eq_true, decide_eq_true_eq] at he
    obtain ⟨mid, hbase, -⟩ := h.split
    obtain ⟨k, hlead, hk⟩ := lead_mem base he.1.1 hbase
    exact ⟨k, hlead, hk.imp_right fun h => absurd h.1 (Nat.not_lt.mpr he.1.2)⟩
  | invoke callee arguments info =>
    simp only [isGrammatical, Bool.and_eq_true, decide_eq_true_eq] at he
    rw [spelling, List.append_assoc] at h
    obtain ⟨mid, hbase, -⟩ := h.split
    obtain ⟨k, hlead, hk⟩ := lead_mem callee he.1.1 hbase
    exact ⟨k, hlead, hk.imp_right fun h => absurd h.1 (Nat.not_lt.mpr he.1.2)⟩
  | index base place info =>
    simp only [isGrammatical, Bool.and_eq_true, decide_eq_true_eq] at he
    rw [spelling, List.append_assoc] at h
    obtain ⟨mid, hbase, -⟩ := h.split
    obtain ⟨k, hlead, hk⟩ := lead_mem base he.1.1 hbase
    exact ⟨k, hlead, hk.imp_right fun h => absurd h.1 (Nat.not_lt.mpr he.1.2)⟩
  | paren inner info =>
    obtain ⟨_, -, rfl⟩ := h.enclosed
    exact ⟨.leftParen, rfl, .inl (by decide)⟩
  | array items info =>
    obtain ⟨_, -, rfl⟩ := h.enclosed
    exact ⟨.leftBracket, rfl, .inl (by decide)⟩
  | object fields info =>
    obtain ⟨_, -, rfl⟩ := h.enclosed
    exact ⟨.leftBrace, rfl, .inl (by decide)⟩

theorem lead_ne {e : Expression Unit} (he : e.isGrammatical = true)
    (h : Spells e.spelling before after) {k : Kind}
    (hk : k ∉ leads ∧ k ≠ .minus ∧ k ≠ .bang) : ∃ j, lead before = some j ∧ j ≠ k := by
  obtain ⟨j, hlead, hj⟩ := lead_mem e he h
  refine ⟨j, hlead, ?_⟩
  rintro rfl
  rcases hj with hj | ⟨-, hj | hj⟩
  · exact hk.1 hj
  · exact hk.2.1 hj
  · exact hk.2.2 hj

end Expression

namespace Grammar

/-- An expression ends where nothing follows that binds to its end: no member, call or element, and
no operator that is as tight as its place. -/
def Stops (least : Nat) (after : List Word) : Prop :=
  ∀ k, lead after = some k → k ≠ .dot ∧ k ≠ .leftParen ∧ k ≠ .leftBracket ∧
    ∀ o, BinaryOperator.ofKind? k = some o → o.precedence.strength < least

theorem Stops.mono {least least' : Nat} (h : Stops least after) (hle : least ≤ least') :
    Stops least' after := by
  intro k hk
  obtain ⟨hdot, hparen, hbracket, hoperator⟩ := h k hk
  exact ⟨hdot, hparen, hbracket, fun o ho => Nat.lt_of_lt_of_le (hoperator o ho) hle⟩

theorem stops_of_lead {k : Kind} (hlead : lead after = some k)
    (hk : k ≠ .dot ∧ k ≠ .leftParen ∧ k ≠ .leftBracket ∧ BinaryOperator.ofKind? k = none)
    (least : Nat) : Stops least after := by
  intro j hj
  obtain rfl := Option.some.inj (hlead.symm.trans hj)
  exact ⟨hk.1, hk.2.1, hk.2.2.1, fun o ho => by rw [hk.2.2.2] at ho; cases ho⟩

theorem stops_operator {o : BinaryOperator} {least : Nat} (h : o.precedence.strength < least) :
    Stops least (.mark o.kind :: rest) := by
  intro k hk
  obtain rfl : o.kind = k := Option.some.inj hk
  refine ⟨?_, ?_, ?_, fun o' ho' => ?_⟩
  · cases o <;> decide
  · cases o <;> decide
  · cases o <;> decide
  · rw [BinaryOperator.ofKind?_kind] at ho'
    cases ho'
    exact h

/-- A rule that finds all expressions that are as tight as `least` where fewer than `bound` words
are ahead. -/
def FindsExpressions (tokens : Array Token) (rule : ExpressionRule) (least bound : Nat) : Prop :=
  ∀ flags (e : Expression Unit), e.Fits flags least → ∀ before after,
    Spells e.spelling before after → before.length < bound → Stops least after →
      Finds tokens flags 1 before rule after (Matched e.Parsed)

theorem wordOf?_literal {value : Literal} (h : Spells value.spelling before after) :
    ∃ w, before = w :: after ∧ ∀ t info, t.word = w →
      wordOf? t info = some (.literal value info) := by
  cases value with
  | integer text =>
    obtain ⟨_, rfl, hnil⟩ := Spells.word_iff.mp h
    cases hnil
    refine ⟨_, rfl, fun t info ht => ?_⟩
    simp only [wordOf?, t.kind_eq ht, t.text_eq ht]
  | float text =>
    obtain ⟨_, rfl, hnil⟩ := Spells.word_iff.mp h
    cases hnil
    refine ⟨_, rfl, fun t info ht => ?_⟩
    simp only [wordOf?, t.kind_eq ht, t.text_eq ht]
  | string contents =>
    cases h with
    | string hnil =>
      cases hnil
      refine ⟨_, rfl, fun t info ht => ?_⟩
      simp only [wordOf?, t.kind_eq ht, t.text_eq ht]
  | boolean value =>
    obtain ⟨_, rfl, hnil⟩ := Spells.mark_iff.mp h
    cases hnil
    refine ⟨_, rfl, fun t info ht => ?_⟩
    cases value
    · simp [wordOf?, t.kind_eq ht, Word.mark]
    · simp [wordOf?, t.kind_eq ht, Word.mark]
  | null =>
    obtain ⟨_, rfl, hnil⟩ := Spells.mark_iff.mp h
    cases hnil
    refine ⟨_, rfl, fun t info ht => ?_⟩
    simp [wordOf?, t.kind_eq ht, Word.mark]

theorem wordOf?_name {n : Identifier Unit} (hn : n.isNamed = true)
    (h : Spells n.spelling before after) :
    ∃ w, before = w :: after ∧ ∀ t info, t.word = w →
      ∃ m : Identifier Info, m.map Info.erase = n ∧ wordOf? t info = some (.name m info) := by
  obtain ⟨name, rfl, rfl⟩ := Identifier.spells hn h
  refine ⟨_, rfl, fun t info ht => ⟨identifierOf t [], ?_, ?_⟩⟩
  · rw [identifierOf, t.text_eq ht]
    rfl
  · simp only [wordOf?, t.kind_eq ht]

variable {expression : ExpressionRule}

theorem finds_word {e : Expression Unit}
    (h : ∀ t info, t.word = w → ∃ n : Expression Info,
      wordOf? t info = some n ∧ n.map Info.erase = e ∧ n.info? = some info) :
    Finds tokens flags 1 (w :: after) (atom expression) after (Matched e.Parsed) := by
  refine finds_nextWord.bind ?_
  rintro _ ⟨t, rfl, hword⟩
  have hsome : ∀ info, (wordOf? t info).isNone = false := fun info => by
    obtain ⟨n, hn, -⟩ := h t info hword
    rw [hn]
    rfl
  dsimp only
  split
  next hkind => exact absurd (hsome {}) (by simp [wordOf?, hkind])
  next hkind => exact absurd (hsome {}) (by simp [wordOf?, hkind])
  next hkind => exact absurd (hsome {}) (by simp [wordOf?, hkind])
  next =>
    rw [hsome]
    refine finds_consume.bind fun _ _ => finds_claimComments.bind fun comments _ => .pure ?_
    obtain ⟨n, hn, herase, hinfo⟩ := h t { extent? := some (.single t), comments } hword
    exact ⟨n, hn, herase, by rw [hinfo]; rfl⟩

theorem finds_objectAhead_name {v : Word} (allowEmpty : Bool) (hv : v.kind = .identifier) :
    Finds tokens flags 1 (w :: v :: rest) (objectAhead allowEmpty) (w :: v :: rest)
      fun b => b = decide (lead rest = some .colon) := by
  refine Finds.tentatively rest (finds_consume.bind fun _ _ => finds_nextKind.bind ?_)
  rintro _ rfl
  have hlead : lead (v :: rest) = some .identifier := congrArg some hv
  simp only [hlead]
  exact finds_consume.bind fun _ _ => finds_isNext _

theorem finds_objectAhead_empty (allowEmpty : Bool) (hlead : lead rest = some .rightBrace) :
    Finds tokens flags 1 (w :: rest) (objectAhead allowEmpty) (w :: rest)
      fun b => b = allowEmpty := by
  refine Finds.tentatively rest (finds_consume.bind fun _ _ => finds_nextKind.bind ?_)
  rintro _ rfl
  simp only [hlead]
  exact .pure rfl

theorem finds_objectAhead_other (allowEmpty : Bool) (hbrace : lead rest ≠ some .rightBrace)
    (hname : lead rest ≠ some .identifier) :
    Finds tokens flags 1 (w :: rest) (objectAhead allowEmpty) (w :: rest)
      fun b => b = false := by
  refine Finds.tentatively rest (finds_consume.bind fun _ _ => finds_nextKind.bind ?_)
  rintro _ rfl
  split
  next h => exact absurd h hbrace
  next h => exact absurd h hname
  next => exact .pure rfl

theorem exists_firstField {slots : β → List Slot} {fields : List (Field Unit β)}
    (hfields : ∀ x ∈ fields, x.name.isNamed = true) (hne : fields ≠ [])
    (h : Spells (Slot.listed (fields.map (Field.slots slots))) before after) :
    ∃ name rest, before = ⟨.identifier, name⟩ :: .mark .colon :: rest := by
  cases fields with
  | nil => exact absurd rfl hne
  | cons x fields =>
    obtain ⟨hx, -⟩ := List.forall_mem_cons.mp hfields
    obtain ⟨more, hmore⟩ : ∃ more, Slot.listed ((x :: fields).map (Field.slots slots)) =
        Field.slots slots x ++ more := by
      rw [List.map_cons, Slot.listed, Slot.separated_cons, List.append_assoc]
      exact ⟨_, rfl⟩
    rw [hmore] at h
    obtain ⟨_, hfirst, -⟩ := h.split
    obtain ⟨_, hname, hvalue⟩ := hfirst.split
    obtain ⟨name, -, rfl⟩ := Identifier.spells hx hname
    obtain ⟨rest, rfl, -⟩ := Spells.mark_iff.mp hvalue
    exact ⟨name, rest, rfl⟩

theorem finds_objectAhead_fields {slots : β → List Slot} {fields : List (Field Unit β)}
    (hfields : ∀ x ∈ fields, x.name.isNamed = true)
    (h : Spells (Slot.listed (fields.map (Field.slots slots))) before (.mark .rightBrace :: after)) :
    Finds tokens flags 1 (w :: before) (objectAhead true) (w :: before) fun b => b = true := by
  by_cases hempty : fields = []
  · subst hempty
    cases h
    exact finds_objectAhead_empty true rfl
  · obtain ⟨name, rest, rfl⟩ := exists_firstField hfields hempty h
    exact finds_objectAhead_name true rfl

theorem finds_bracketed (hexpression : FindsExpressions tokens expression 0 bound)
    {e : Expression Unit} (he : e.isGrammatical = true) (h : Spells e.spelling before after)
    (hbound : before.length < bound) (hafter : Stops 0 after) :
    Finds tokens flags 1 before (inBrackets (required expression .missingExpression .missing)) after
      e.Parsed :=
  .underFlags (finds_required (hexpression _ e
    (Expression.fits_of_isGrammatical he (Expression.noObject_inBrackets flags)) before after h
    hbound hafter))

theorem stops_item {stop : Kind}
    (hstop : stop ≠ .dot ∧ stop ≠ .leftParen ∧ stop ≠ .leftBracket ∧
      BinaryOperator.ofKind? stop = none)
    (h : lead after = some .comma ∨ lead after = some stop) (least : Nat) : Stops least after :=
  h.elim (fun h => stops_of_lead h (by decide) least) fun h => stops_of_lead h hstop least

theorem finds_expressions (hexpression : FindsExpressions tokens expression 0 bound)
    {es : List (Expression Unit)} (hes : ∀ e ∈ es, e.isGrammatical = true) (shape : SeriesShape)
    {stop : Kind} (hdelimiter : shape.delimiter = some .comma)
    (hterminator : shape.terminator = some stop)
    (hstop : stop ∉ Expression.leads ∧ stop ≠ .minus ∧ stop ≠ .bang)
    (hstops : stop ≠ .comma ∧ stop ≠ .dot ∧ BinaryOperator.ofKind? stop = none)
    (hafter : lead after = some stop)
    (h : Spells (Slot.commas shape.allowTrailing (es.map Expression.spelling)) before after)
    (hbound : before.length < bound) :
    Finds tokens flags 1 before (inBrackets (items shape expression)) after
      fun found => found.map (Expression.map Info.erase) = es := by
  have hparen : stop ≠ .leftParen := fun h => hstop.1 (h ▸ by decide)
  have hbracket : stop ≠ .leftBracket := fun h => hstop.1 (h ▸ by decide)
  refine Finds.underFlags (finds_commas shape hdelimiter hterminator hstops.1 hafter
    (fun e he _ _ hspells => Expression.lead_ne (hes e he) hspells hstop)
    (fun e he here there hspells hlength hthere => ?_) h hbound)
  refine (hexpression _ e (Expression.fits_of_isGrammatical (hes e he)
    (Expression.noObject_inBrackets flags)) here there hspells hlength
    (stops_item ⟨hstops.2.1, hparen, hbracket, hstops.2.2⟩ hthere 0)).weaken ?_
  rintro _ ⟨n, rfl, hn⟩
  exact ⟨n, rfl, hn.1⟩

theorem finds_parenthesized (hexpression : FindsExpressions tokens expression 0 bound)
    {inner : Expression Unit} (hinner : inner.isGrammatical = true)
    (h : Spells inner.spelling before (.mark .rightParen :: after)) (hbound : before.length < bound)
    (t : Token) : Finds tokens flags 1 (w :: before) (parenthesized expression t) after
      (Expression.paren inner ()).Parsed := by
  refine finds_consume.bind fun _ _ => finds_claimComments.bind fun comments _ => ?_
  refine (finds_bracketed hexpression hinner h hbound
    (stops_of_lead rfl (by decide) 0)).bind fun n hn => ?_
  refine finds_closed t comments fun info hinfo => ⟨?_, hinfo⟩
  rw [Expression.map, hn.1]

theorem finds_arrayLiteral (hexpression : FindsExpressions tokens expression 0 bound)
    {es : List (Expression Unit)} (hes : ∀ e ∈ es, e.isGrammatical = true)
    (h : Spells (Slot.listed (es.map Expression.spelling)) before (.mark .rightBracket :: after))
    (hbound : before.length < bound) (t : Token) :
    Finds tokens flags 1 (w :: before) (arrayLiteral expression t) after
      (Expression.array es ()).Parsed := by
  rw [← Slot.commas_true] at h
  refine finds_consume.bind fun _ _ => finds_claimComments.bind fun comments _ => ?_
  refine (finds_expressions hexpression hes (.commas .rightBracket) rfl rfl (by decide)
    (by decide) rfl h hbound).bind fun found hfound => ?_
  refine finds_closed t comments fun info hinfo => ⟨?_, hinfo⟩
  rw [Expression.map, Expression.mapAll_eq, hfound]

theorem finds_objectLiteral (hexpression : FindsExpressions tokens expression 0 bound)
    {fields : List (Field Unit (Expression Unit))}
    (hfields : ∀ x ∈ fields, x.name.isNamed = true ∧ x.value.isGrammatical = true)
    (h : Spells (Slot.listed (fields.map (Field.slots Expression.spelling))) before
      (.mark .rightBrace :: after))
    (hbound : before.length < bound) (t : Token) :
    Finds tokens flags 1 (w :: before) (objectLiteral expression t) after
      (Expression.object fields ()).Parsed := by
  rw [← Slot.commas_true] at h
  refine finds_consume.bind fun _ _ => finds_claimComments.bind fun comments _ => ?_
  have hfound : Finds tokens flags 1 before
      (inBrackets (items (.commas .rightBrace)
        (field (required expression .missingExpression .missing) .missing)))
      (.mark .rightBrace :: after)
      fun found => found.map (Field.map Info.erase (Expression.map Info.erase)) = fields := by
    refine Finds.underFlags (finds_commas (.commas .rightBrace) rfl rfl (by decide) rfl
      (fun x hx _ _ hspells => ⟨_, Field.lead_eq (hfields x hx).1 hspells, by decide⟩)
      (fun x hx => finds_field (hfields x hx).1 fun here there hspells hlength hthere => ?_) h
      hbound)
    refine finds_required ((hexpression _ x.value (Expression.fits_of_isGrammatical (hfields x hx).2
      (Expression.noObject_inBrackets flags)) here there hspells hlength
      (stops_item (by decide) hthere 0)).weaken ?_)
    rintro _ ⟨n, rfl, hn⟩
    exact ⟨n, rfl, hn.1⟩
  refine hfound.bind fun found hfound => ?_
  refine finds_closed t comments fun info hinfo => ⟨?_, hinfo⟩
  rw [Expression.map, Expression.mapFields_eq, hfound]

theorem finds_atom (hexpression : FindsExpressions tokens expression 0 bound) {e : Expression Unit}
    (he : e.Fits flags 5) (hatom : e.isAtom = true) (h : Spells e.spelling before after)
    (hbound : before.length < bound + 1) :
    Finds tokens flags 1 before (atom expression) after (Matched e.Parsed) := by
  cases e with
  | missing => cases hatom
  | binary => cases hatom
  | unary => cases hatom
  | member => cases hatom
  | invoke => cases hatom
  | index => cases hatom
  | literal value info =>
    obtain ⟨w, rfl, hw⟩ := wordOf?_literal h
    exact finds_word fun t info' ht => ⟨_, hw t info' ht, rfl, rfl⟩
  | name identifier info =>
    obtain ⟨w, rfl, hw⟩ := wordOf?_name he.1 h
    refine finds_word fun t info' ht => ?_
    obtain ⟨m, hm, hword⟩ := hw t info' ht
    exact ⟨_, hword, by rw [Expression.map, hm], rfl⟩
  | paren inner info =>
    obtain ⟨words, hinner, rfl⟩ := h.enclosed
    have hok : inner.isGrammatical = true := he.1
    refine finds_nextWord.bind ?_
    rintro _ ⟨t, rfl, hword⟩
    simp only [t.kind_eq hword]
    exact Finds.map (finds_parenthesized hexpression hok hinner (Nat.lt_of_succ_lt_succ hbound) t)
      fun n hn => ⟨n, rfl, hn⟩
  | array items info =>
    obtain ⟨words, hinner, rfl⟩ := h.enclosed
    rw [Expression.spellings_eq] at hinner
    refine finds_nextWord.bind ?_
    rintro _ ⟨t, rfl, hword⟩
    simp only [t.kind_eq hword]
    exact Finds.map (finds_arrayLiteral hexpression
      (Expression.isGrammatical_of_areGrammatical he.1) hinner (Nat.lt_of_succ_lt_succ hbound) t)
      fun n hn => ⟨n, rfl, hn⟩
  | object fields info =>
    obtain ⟨words, hinner, rfl⟩ := h.enclosed
    rw [Expression.fieldSpellings_eq] at hinner
    have hfields := Expression.isGrammatical_of_areFields he.1
    have hopen : flags.noObject = false := Bool.eq_false_iff.mpr fun hno =>
      Bool.noConfusion (he.2.2 hno : true = false)
    refine finds_nextWord.bind ?_
    rintro _ ⟨t, rfl, hword⟩
    simp only [t.kind_eq hword]
    refine finds_flags.bind ?_
    rintro _ rfl
    rw [hopen]
    refine (finds_objectAhead_fields (fun x hx => (hfields x hx).1) hinner).bind ?_
    rintro _ rfl
    exact Finds.map (finds_objectLiteral hexpression hfields hinner
      (Nat.lt_of_succ_lt_succ hbound) t) fun n hn => ⟨n, rfl, hn⟩

theorem finds_memberTurn {n : Expression Info} {base : Expression Unit} {name : Identifier Unit}
    (hn : base.Parsed n) (hname : name.isNamed = true) (h : Spells name.spelling before after) :
    Finds tokens flags 1 (.mark .dot :: before) (postfixTurn expression n) after
      (Again (Expression.member base name ()).Parsed) := by
  refine finds_nextKind.bind ?_
  rintro _ rfl
  refine finds_consume.bind fun _ _ => (finds_requiredIdentifier hname h).bind fun m hm => ?_
  refine (finds_infoAfter n.info?).bind fun info hinfo => .pure ⟨_, rfl, ?_, hinfo hn.2⟩
  simp only [Expression.map, hn.1, hm]

theorem finds_invokeTurn (hexpression : FindsExpressions tokens expression 0 bound)
    {n : Expression Info} {callee : Expression Unit} {arguments : List (Expression Unit)}
    (hn : callee.Parsed n) (harguments : ∀ e ∈ arguments, e.isGrammatical = true)
    (h : Spells (Slot.separated .comma (arguments.map Expression.spelling)) before
      (.mark .rightParen :: after)) (hbound : before.length < bound) :
    Finds tokens flags 1 (.mark .leftParen :: before) (postfixTurn expression n) after
      (Again (Expression.invoke callee arguments ()).Parsed) := by
  rw [← Slot.commas_false] at h
  refine finds_nextKind.bind ?_
  rintro _ rfl
  refine finds_consume.bind fun _ _ => ?_
  refine (finds_expressions hexpression harguments
    { SeriesShape.commas .rightParen with allowTrailing := false } rfl rfl (by decide) (by decide)
    rfl h hbound).bind fun found hfound => ?_
  refine (finds_require rfl).bind fun _ _ => (finds_infoAfter n.info?).bind fun info hinfo => ?_
  refine .pure ⟨_, rfl, ?_, hinfo hn.2⟩
  simp only [Expression.map, Expression.mapAll_eq, hn.1, hfound]

theorem finds_indexTurn (hexpression : FindsExpressions tokens expression 0 bound)
    {n : Expression Info} {base place : Expression Unit} (hn : base.Parsed n)
    (hplace : place.isGrammatical = true)
    (h : Spells place.spelling before (.mark .rightBracket :: after))
    (hbound : before.length < bound) :
    Finds tokens flags 1 (.mark .leftBracket :: before) (postfixTurn expression n) after
      (Again (Expression.index base place ()).Parsed) := by
  refine finds_nextKind.bind ?_
  rintro _ rfl
  refine finds_consume.bind fun _ _ => ?_
  refine (finds_bracketed hexpression hplace h hbound
    (stops_of_lead rfl (by decide) 0)).bind fun m hm => ?_
  refine (finds_require rfl).bind fun _ _ => (finds_infoAfter n.info?).bind fun info hinfo => ?_
  refine .pure ⟨_, rfl, ?_, hinfo hn.2⟩
  simp only [Expression.map, hn.1, hm.1]

def Postfixed (tokens : Array Token) (flags : Flags) (expression : ExpressionRule)
    (e : Expression Unit) (before after : List Word) : Prop :=
  ∃ (base : Expression Unit) (mid : List Word), base.Fits flags 5 ∧ base.isAtom = true ∧
    Spells base.spelling before mid ∧
    Turns tokens flags 1 (postfixTurn expression) base.Parsed mid e.Parsed after

theorem Postfixed.turn {base e : Expression Unit} {mid : List Word}
    (h : Postfixed tokens flags expression base before mid)
    (hturn : ∀ n, base.Parsed n →
      Finds tokens flags 1 mid (postfixTurn expression n) after (Again e.Parsed))
    (hlt : after.length < mid.length) : Postfixed tokens flags expression e before after := by
  obtain ⟨atom, start, hfits, hatom, hspells, hturns⟩ := h
  exact ⟨atom, start, hfits, hatom, hspells, hturns.one hturn hlt⟩

theorem postfixed_of_fits (hexpression : FindsExpressions tokens expression 0 bound)
    (e : Expression Unit) (he : e.Fits flags 5) {before after : List Word}
    (h : Spells e.spelling before after) (hbound : before.length < bound + 1) :
    Postfixed tokens flags expression e before after := by
  cases e with
  | missing => exact absurd he.1 (by decide)
  | literal value info => exact ⟨_, after, he, rfl, h, .none⟩
  | name identifier info => exact ⟨_, after, he, rfl, h, .none⟩
  | paren inner info => exact ⟨_, after, he, rfl, h, .none⟩
  | array items info => exact ⟨_, after, he, rfl, h, .none⟩
  | object fields info => exact ⟨_, after, he, rfl, h, .none⟩
  | binary operator left right info =>
    have hstrength : 5 ≤ operator.precedence.strength := he.2.1
    exact absurd hstrength (Nat.not_le.mpr (Nat.lt_succ_of_lt operator.precedence.strength_lt))
  | unary operator operand info =>
    have hstrength : 5 ≤ 4 := he.2.1
    exact absurd hstrength (by decide)
  | member base name info =>
    obtain ⟨hok, -, hopen⟩ := he
    simp only [Expression.isGrammatical, Bool.and_eq_true, decide_eq_true_eq] at hok
    obtain ⟨mid, hbase, hrest⟩ := h.split
    obtain ⟨words, rfl, hname⟩ := Spells.mark_iff.mp hrest
    have hpostfixed := postfixed_of_fits hexpression base ⟨hok.1.1, hok.1.2, hopen⟩ hbase hbound
    exact hpostfixed.turn (fun n hn => finds_memberTurn hn hok.2 hname)
      (Nat.lt_succ_of_le hname.length_le)
  | invoke callee arguments info =>
    obtain ⟨hok, -, hopen⟩ := he
    simp only [Expression.isGrammatical, Bool.and_eq_true, decide_eq_true_eq] at hok
    rw [Expression.spelling, List.append_assoc] at h
    obtain ⟨words, hbase, hinner, hlt, hlt'⟩ := h.enclosedBehind
    rw [Expression.spellings_eq] at hinner
    have hpostfixed := postfixed_of_fits hexpression callee ⟨hok.1.1, hok.1.2, hopen⟩ hbase hbound
    refine hpostfixed.turn (fun n hn => ?_) (Nat.lt_succ_of_lt hlt')
    exact finds_invokeTurn hexpression hn (Expression.isGrammatical_of_areGrammatical hok.2) hinner
      (by omega)
  | index base place info =>
    obtain ⟨hok, -, hopen⟩ := he
    simp only [Expression.isGrammatical, Bool.and_eq_true, decide_eq_true_eq] at hok
    rw [Expression.spelling, List.append_assoc] at h
    obtain ⟨words, hbase, hinner, hlt, hlt'⟩ := h.enclosedBehind
    have hpostfixed := postfixed_of_fits hexpression base ⟨hok.1.1, hok.1.2, hopen⟩ hbase hbound
    refine hpostfixed.turn (fun n hn => ?_) (Nat.lt_succ_of_lt hlt')
    exact finds_indexTurn hexpression hn hok.2 hinner (by omega)

theorem finds_postfixed (hexpression : FindsExpressions tokens expression 0 bound) :
    FindsExpressions tokens (postfixed expression) 5 (bound + 1) := by
  intro flags e he before after h hbound hafter
  obtain ⟨base, mid, hfits, hatom, hspells, hturns⟩ := postfixed_of_fits hexpression e he h hbound
  refine (finds_atom hexpression hfits hatom hspells hbound).bind ?_
  rintro _ ⟨n, rfl, hn⟩
  refine Finds.map (hturns.loop hn fun n hn => ?_) fun n hn => ⟨n, rfl, hn⟩
  refine finds_nextKind.bind ?_
  rintro _ rfl
  split
  next hdot => exact absurd rfl (hafter _ hdot).1
  next hparen => exact absurd rfl (hafter _ hparen).2.1
  next hbracket => exact absurd rfl (hafter _ hbracket).2.2.1
  next => exact .pure ⟨n, rfl, hn⟩

def signed (operators : List UnaryOperator) (operand : Expression Unit) : Expression Unit :=
  operators.foldr (fun o e => .unary o e ()) operand

theorem exists_signs (e : Expression Unit) (he : e.Fits flags 4) {before after : List Word}
    (h : Spells e.spelling before after) :
    ∃ (operators : List UnaryOperator) (operand : Expression Unit) (mid : List Word),
      e = signed operators operand ∧ operand.Fits flags 5 ∧
      Spells (operators.map fun o => .mark o.kind) before mid ∧
      Spells operand.spelling mid after := by
  cases e with
  | unary operator operand info =>
    obtain ⟨hok, -, hopen⟩ := he
    simp only [Expression.isGrammatical, Bool.and_eq_true, decide_eq_true_eq] at hok
    obtain ⟨words, rfl, hoperand⟩ := Spells.mark_iff.mp h
    obtain ⟨operators, inner, mid, rfl, hfits, hsigns, hinner⟩ :=
      exists_signs operand ⟨hok.1, hok.2, hopen⟩ hoperand
    exact ⟨operator :: operators, inner, mid, rfl, hfits, hsigns.mark, hinner⟩
  | binary operator left right info =>
    have hstrength : 4 ≤ operator.precedence.strength := he.2.1
    exact absurd hstrength (Nat.not_le.mpr operator.precedence.strength_lt)
  | missing => exact absurd he.1 (by decide)
  | literal value info => exact ⟨[], _, before, rfl, ⟨he.1, Nat.le_refl 5, he.2.2⟩, .nil, h⟩
  | name identifier info => exact ⟨[], _, before, rfl, ⟨he.1, Nat.le_refl 5, he.2.2⟩, .nil, h⟩
  | member base field info => exact ⟨[], _, before, rfl, ⟨he.1, Nat.le_refl 5, he.2.2⟩, .nil, h⟩
  | invoke callee arguments info =>
    exact ⟨[], _, before, rfl, ⟨he.1, Nat.le_refl 5, he.2.2⟩, .nil, h⟩
  | index base place info => exact ⟨[], _, before, rfl, ⟨he.1, Nat.le_refl 5, he.2.2⟩, .nil, h⟩
  | paren inner info => exact ⟨[], _, before, rfl, ⟨he.1, Nat.le_refl 5, he.2.2⟩, .nil, h⟩
  | array items info => exact ⟨[], _, before, rfl, ⟨he.1, Nat.le_refl 5, he.2.2⟩, .nil, h⟩
  | object fields info => exact ⟨[], _, before, rfl, ⟨he.1, Nat.le_refl 5, he.2.2⟩, .nil, h⟩

theorem finds_signTurns {operators : List UnaryOperator} {here : List Word}
    (h : Spells (operators.map fun o => .mark o.kind) here after)
    (hafter : ∀ k, lead after = some k → UnaryOperator.ofKind? k = none) (found : List Sign)
    (n : Nat) (hn : here.length < n) :
    Finds tokens flags 1 here (iterate signTurn n found) after fun signs =>
      signs.map Sign.operator = operators.reverse ++ found.map Sign.operator := by
  -- Each sign is put in front of those found, so they come out in reverse.
  induction operators generalizing here found n with
  | nil =>
    cases h
    refine finds_iterate_done (finds_nextKind.bind ?_) (by omega)
    rintro _ rfl
    have hnone : (lead after).bind UnaryOperator.ofKind? = none := by
      cases hlead : lead after with
      | none => rfl
      | some k => exact hafter k hlead
    rw [hnone]
    exact .pure ⟨found, rfl, rfl⟩
  | cons operator operators ih =>
    obtain ⟨n, rfl⟩ := Nat.exists_eq_succ_of_ne_zero (Nat.ne_of_gt (Nat.zero_lt_of_lt hn))
    obtain ⟨words, rfl, hmore⟩ := Spells.mark_iff.mp h
    have hturn : Finds tokens flags 1 (.mark operator.kind :: words) (signTurn found) words
        (Again fun signs => signs.map Sign.operator = operator :: found.map Sign.operator) := by
      refine finds_nextKind.bind ?_
      rintro _ rfl
      have hsome : (lead (.mark operator.kind :: words)).bind UnaryOperator.ofKind? =
          some operator := UnaryOperator.ofKind?_kind operator
      rw [hsome]
      refine finds_consume.bind ?_
      rintro _ ⟨t, rfl, -⟩
      exact finds_claimComments.bind fun comments _ => .pure ⟨_, rfl, rfl⟩
    refine finds_iterate_again hturn fun signs hsigns => (ih hmore signs n
      (Nat.lt_of_succ_lt_succ hn)).weaken fun signs' hsigns' => ?_
    rw [hsigns', hsigns, List.reverse_cons, List.append_assoc, List.singleton_append]

theorem finds_applySigns (found : List Sign) {operand : Expression Unit} {n : Expression Info}
    (hn : operand.Parsed n) :
    Finds tokens flags 1 before (applySigns n found) before
      (signed (found.map Sign.operator).reverse operand).Parsed := by
  induction found generalizing operand n with
  | nil => exact .pure hn
  | cons sign found ih =>
    refine (finds_infoFrom sign.token sign.comments).bind fun info hinfo => ?_
    have hsign : (Expression.unary sign.operator operand ()).Parsed
        (.unary sign.operator n info) := ⟨by rw [Expression.map, hn.1], hinfo⟩
    refine (ih hsign).weaken fun m hm => ?_
    rw [List.map_cons, List.reverse_cons, signed, List.foldr_append]
    exact hm

variable {operand : ExpressionRule}

theorem finds_unary (hoperand : FindsExpressions tokens operand 5 bound) :
    FindsExpressions tokens (unary operand) 4 bound := by
  intro flags e he before after h hbound hafter
  obtain ⟨operators, inner, mid, rfl, hfits, hsigns, hinner⟩ := exists_signs e he h
  have hlength := hsigns.length_le
  have hfound :=
    hoperand flags inner hfits mid after hinner (by omega) (hafter.mono (Nat.le_succ 4))
  -- The operand binds too tightly to begin with a prefix operator, so the loop stops at it.
  have hmid : ∀ k, lead mid = some k → UnaryOperator.ofKind? k = none := by
    intro k hk
    obtain ⟨j, hj, hleads⟩ := Expression.lead_mem inner hfits.1 hinner
    obtain rfl := Option.some.inj (hj.symm.trans hk)
    rcases hleads with hleads | ⟨hloose, -⟩
    · exact Expression.ofKind?_lead j hleads
    · exact absurd hloose (Nat.not_lt.mpr hfits.2.1)
  have hloop : Finds tokens flags 1 before signs mid
      fun found => found.map Sign.operator = operators.reverse :=
    finds_loop fun n hn => (finds_signTurns hsigns hmid [] n hn).weaken fun found hfound => by
      rw [hfound, List.map_nil, List.append_nil]
  refine hloop.bind fun found hsigned => ?_
  have hoperators : operators = (found.map Sign.operator).reverse := by
    rw [hsigned, List.reverse_reverse]
  cases found with
  | nil =>
    rw [hoperators]
    exact hfound
  | cons sign found =>
    rw [hoperators]
    exact (finds_required hfound).bind fun n hn =>
      Finds.map (finds_applySigns (sign :: found) hn) fun m hm => ⟨m, rfl, hm⟩

theorem finds_warnMixed (chain : Chain) (operator : BinaryOperator) (t : Token) :
    Finds tokens flags 1 before (warnMixed chain operator t) before fun _ => True := by
  simp only [warnMixed]
  cases chain.first? with
  | none => exact .pure trivial
  | some first =>
    dsimp only
    split
    · exact (finds_warning (by decide)).bind fun _ _ => .pure trivial
    · exact .pure trivial

theorem finds_chainTurn {operator : BinaryOperator} {left right : Expression Unit} {chain : Chain}
    (hchain : left.Parsed chain.left)
    (hright : Finds tokens flags 1 before operand after (Matched right.Parsed)) :
    Finds tokens flags 1 (.mark operator.kind :: before)
      (chainTurn operator.precedence operand chain) after
      (Again fun c => (Expression.binary operator left right ()).Parsed c.left) := by
  refine finds_nextKind.bind ?_
  rintro _ rfl
  have hsome : (lead (.mark operator.kind :: before)).bind BinaryOperator.ofKind? =
      some operator := BinaryOperator.ofKind?_kind operator
  simp only [hsome, ne_eq, not_true_eq_false, if_false]
  refine finds_consume.bind ?_
  rintro _ ⟨t, rfl, -⟩
  refine (finds_warnMixed chain operator t).bind fun warned _ => ?_
  refine (finds_required hright).bind fun n hn => ?_
  refine (finds_infoAfter chain.left.info?).bind fun info hinfo => ?_
  refine .pure ⟨_, rfl, ?_, hinfo hchain.2⟩
  simp only [Expression.map, hchain.1, hn.1]

theorem exists_chainTurns {level : Precedence}
    (hoperand : FindsExpressions tokens operand (level.strength + 1) bound) (e : Expression Unit)
    (he : e.Fits flags level.strength) {before after : List Word}
    (h : Spells e.spelling before after) (hbound : before.length < bound)
    (hafter : Stops (level.strength + 1) after) :
    ∃ (left : Expression Unit) (mid : List Word), left.Fits flags (level.strength + 1) ∧
      Spells left.spelling before mid ∧ Stops (level.strength + 1) mid ∧
      Turns tokens flags 1 (chainTurn level operand) (fun c => left.Parsed c.left) mid
        (fun c => e.Parsed c.left) after := by
  -- What holds together more tightly is an operand itself and takes no turn.
  by_cases hlevel : level.strength < e.strength
  · exact ⟨e, after, ⟨he.1, hlevel, he.2.2⟩, h, hafter, .none⟩
  have hstrength : e.strength = level.strength := Nat.le_antisymm (Nat.not_lt.mp hlevel) he.2.1
  have hloose : e.strength < 4 := hstrength ▸ level.strength_lt
  cases e with
  | binary operator left right info =>
    obtain rfl : operator.precedence = level := Precedence.eq_of_strength hstrength
    obtain ⟨hok, -, hopen⟩ := he
    simp only [Expression.isGrammatical, Bool.and_eq_true, decide_eq_true_eq] at hok
    simp only [Expression.hasOpenObject, Bool.or_eq_false_iff] at hopen
    obtain ⟨mid, hleft, hrest⟩ := h.split
    obtain ⟨words, rfl, hright⟩ := Spells.mark_iff.mp hrest
    have hlength := hleft.length_le
    rw [List.length_cons] at hlength
    -- Chains group to the left, so the left operand is a shorter chain of the same level.
    obtain ⟨first, start, hfits, hfirst, hstart, hturns⟩ := exists_chainTurns hoperand left
      ⟨hok.1.1.1, hok.1.1.2, fun hno => (hopen hno).1⟩ hleft hbound
      (stops_operator (Nat.lt_succ_self _))
    have hfound : Finds tokens flags 1 words operand after (Matched right.Parsed) :=
      hoperand flags right ⟨hok.1.2, hok.2, fun hno => (hopen hno).2⟩ words after hright (by omega)
        hafter
    exact ⟨first, start, hfits, hfirst, hstart, hturns.one
      (fun chain hchain => finds_chainTurn hchain hfound) (Nat.lt_succ_of_le hright.length_le)⟩
  | missing => exact absurd he.1 (by decide)
  | unary operator operand info => exact absurd hloose (Nat.lt_irrefl 4)
  | literal value info => exact absurd hloose (Nat.not_lt.mpr (Nat.le_succ 4))
  | name identifier info => exact absurd hloose (Nat.not_lt.mpr (Nat.le_succ 4))
  | member base field info => exact absurd hloose (Nat.not_lt.mpr (Nat.le_succ 4))
  | invoke callee arguments info => exact absurd hloose (Nat.not_lt.mpr (Nat.le_succ 4))
  | index base place info => exact absurd hloose (Nat.not_lt.mpr (Nat.le_succ 4))
  | paren inner info => exact absurd hloose (Nat.not_lt.mpr (Nat.le_succ 4))
  | array items info => exact absurd hloose (Nat.not_lt.mpr (Nat.le_succ 4))
  | object fields info => exact absurd hloose (Nat.not_lt.mpr (Nat.le_succ 4))

theorem finds_binary (level : Precedence)
    (hoperand : FindsExpressions tokens operand (level.strength + 1) bound) :
    FindsExpressions tokens (binary level operand) level.strength bound := by
  intro flags e he before after h hbound hafter
  obtain ⟨left, mid, hfits, hleft, hmid, hturns⟩ :=
    exists_chainTurns hoperand e he h hbound (hafter.mono (Nat.le_succ _))
  refine (hoperand flags left hfits before mid hleft hbound hmid).bind ?_
  rintro _ ⟨n, rfl, hn⟩
  refine Finds.bind (hturns.loop (R := fun c => e.Parsed c.left) hn fun chain hchain => ?_)
    fun chain hchain => .pure ⟨_, rfl, hchain⟩
  refine finds_nextKind.bind ?_
  rintro _ rfl
  cases hop : (lead after).bind BinaryOperator.ofKind? with
  | none => exact .pure ⟨chain, rfl, hchain⟩
  | some operator =>
    obtain ⟨k, hk, hkind⟩ := Option.bind_eq_some_iff.mp hop
    have hless := (hafter k hk).2.2.2 operator hkind
    have hlevel : operator.precedence ≠ level := fun h => Nat.lt_irrefl _ (h ▸ hless)
    simp only [ne_eq, hlevel, not_false_eq_true, if_true]
    exact .pure ⟨chain, rfl, hchain⟩

theorem finds_operators (hexpression : FindsExpressions tokens expression 0 bound) :
    FindsExpressions tokens (operators expression) 0 (bound + 1) :=
  finds_binary .logical <| finds_binary .comparison <|
    finds_binary .additive <| finds_binary .multiplicative <|
      finds_unary (finds_postfixed hexpression)

theorem finds_expressionWithin (depth : Nat) :
    FindsExpressions tokens (expressionWithin depth) 0 depth := by
  induction depth with
  | zero => exact fun _ _ _ _ _ _ hbound => absurd hbound (Nat.not_lt_zero _)
  | succ depth ih =>
    intro flags e he before after h hbound hafter
    exact (finds_operators ih flags e he before after h hbound hafter).remembered

theorem finds_expression {e : Expression Unit} (he : e.Fits flags 0)
    (h : Spells e.spelling before after) (hafter : Stops 0 after) :
    Finds tokens flags 1 before Grammar.expression after (Matched e.Parsed) := by
  refine Finds.bounded fun hsize => finds_maxDepth.bind ?_
  rintro _ rfl
  exact finds_expressionWithin _ flags e he before after h (Nat.lt_succ_of_le hsize) hafter

theorem finds_requiredExpression {e : Expression Unit} (he : e.Fits flags 0)
    (h : Spells e.spelling before after) (hafter : Stops 0 after) :
    Finds tokens flags 1 before requiredExpression after e.Parsed :=
  finds_required (finds_expression he h hafter)

end Grammar

end Reparse
