import Reparse.Proofs.Grammar.Complete.Expressions
import Reparse.Proofs.Grammar.Sound.Statements

/-!
# Completeness of the grammar of statements

The first word of a statement says which one it is, but for an opening brace: there two more words
tell a block from an object literal. They do, because no statement starts with a name and a colon,
and no expression in the place of a statement starts with empty braces.
-/

namespace Reparse

open Reparse.Parser

variable {α : Type} {tokens : Array Token} {flags : Flags} {before mid after rest : List Word}
  {w : Word} {bound : Nat}

structure Expression.Opens (e : Expression α) (words : List Word) : Prop where
  name : lead words = some .identifier → lead words.tail ≠ some .colon
  brace : lead words = some .leftBrace → e.startsWithEmptyObject = false →
    ∃ name rest, words = .mark .leftBrace :: ⟨.identifier, name⟩ :: .mark .colon :: rest

namespace Expression

theorem Opens.of_lead {e : Expression α} {k : Kind} {words : List Word} (h : lead words = some k)
    (hname : k ≠ .identifier) (hbrace : k ≠ .leftBrace) : e.Opens words where
  name h' := absurd (Option.some.inj (h.symm.trans h')) hname
  brace h' := absurd (Option.some.inj (h.symm.trans h')) hbrace

theorem Opens.of_left {e left : Expression α} {words : List Word} (h : left.Opens words)
    (hleft : e.startsWithEmptyObject = left.startsWithEmptyObject) : e.Opens words :=
  ⟨h.name, hleft ▸ h.brace⟩

theorem opens (e : Expression Unit) (he : e.isGrammatical = true) {before after : List Word}
    (h : Spells e.spelling before after) (hafter : lead after ≠ some .colon) : e.Opens before := by
  cases e with
  | missing => cases he
  | literal value info =>
    obtain ⟨k, -, hlead, hname, hbrace⟩ := Literal.lead_mem h
    exact .of_lead hlead hname hbrace
  | name identifier info =>
    obtain ⟨_, -, rfl⟩ := Identifier.spells he h
    exact ⟨fun _ => hafter, fun hlead => Kind.noConfusion (Option.some.inj hlead)⟩
  | unary operator operand info =>
    obtain ⟨_, rfl, -⟩ := Spells.mark_iff.mp h
    exact .of_lead rfl (by cases operator <;> decide) (by cases operator <;> decide)
  | paren inner info =>
    obtain ⟨_, -, rfl⟩ := h.enclosed
    exact .of_lead rfl (by decide) (by decide)
  | array items info =>
    obtain ⟨_, -, rfl⟩ := h.enclosed
    exact .of_lead rfl (by decide) (by decide)
  | object fields info =>
    obtain ⟨_, hinner, rfl⟩ := h.enclosed
    refine ⟨fun hlead => Kind.noConfusion (Option.some.inj hlead), fun _ hempty => ?_⟩
    rw [fieldSpellings_eq] at hinner
    obtain ⟨name, rest, rfl⟩ := Grammar.exists_firstField
      (fun x hx => (isGrammatical_of_areFields he x hx).1) (List.isEmpty_eq_false_iff.mp hempty)
      hinner
    exact ⟨name, rest, rfl⟩
  | binary operator left right info =>
    simp only [isGrammatical, Bool.and_eq_true] at he
    obtain ⟨mid, hleft, hrest⟩ := h.split
    obtain ⟨_, rfl, -⟩ := Spells.mark_iff.mp hrest
    refine (opens left he.1.1.1 hleft ?_).of_left rfl
    cases operator <;> simp [BinaryOperator.kind]
  | member base field info =>
    simp only [isGrammatical, Bool.and_eq_true] at he
    obtain ⟨mid, hbase, hrest⟩ := h.split
    obtain ⟨_, rfl, -⟩ := Spells.mark_iff.mp hrest
    exact (opens base he.1.1 hbase (by simp)).of_left rfl
  | invoke callee arguments info =>
    simp only [isGrammatical, Bool.and_eq_true] at he
    rw [spelling, List.append_assoc] at h
    obtain ⟨_, hbase, -⟩ := h.enclosedBehind
    exact (opens callee he.1.1 hbase (by simp)).of_left rfl
  | index base place info =>
    simp only [isGrammatical, Bool.and_eq_true] at he
    rw [spelling, List.append_assoc] at h
    obtain ⟨_, hbase, -⟩ := h.enclosedBehind
    exact (opens base he.1.1 hbase (by simp)).of_left rfl

end Expression

/-- What the words of a statement, or of one with others behind it, cannot start with. -/
structure Statement.Opens (words : List Word) : Prop where
  nonempty : ∃ k, lead words = some k ∧ k ≠ .rightBrace
  notElse : lead words ≠ some .elseWord
  name : lead words = some .identifier → lead words.tail ≠ some .colon

namespace Statement

theorem Opens.of_lead {k : Kind} {words : List Word} (h : lead words = some k)
    (hk : k ≠ .rightBrace ∧ k ≠ .elseWord ∧ k ≠ .identifier) : Opens words where
  nonempty := ⟨k, h, hk.1⟩
  notElse h' := hk.2.1 (Option.some.inj (h.symm.trans h'))
  name h' := absurd (Option.some.inj (h.symm.trans h')) hk.2.2

theorem Opens.of_expression {e : Expression Unit} (he : e.isGrammatical = true)
    (h : Spells e.spelling before after) (hafter : lead after ≠ some .colon) : Opens before where
  nonempty := Expression.lead_ne he h (by decide)
  notElse h' := by
    obtain ⟨j, hlead, hj⟩ := Expression.lead_ne he h (k := .elseWord) (by decide)
    exact hj (Option.some.inj (hlead.symm.trans h'))
  name := (Expression.opens e he h hafter).name

theorem opens {inLoop : Bool} {s : Statement Unit} (hs : s.isGrammatical inLoop = true)
    (h : Spells s.spelling before after) : Opens before := by
  cases s with
  | declare name type? value info =>
    obtain ⟨_, rfl, -⟩ := Spells.mark_iff.mp h
    exact .of_lead rfl (by decide)
  | assign target value info =>
    simp only [isGrammatical, Expression.startsStatement, Bool.and_eq_true] at hs
    obtain ⟨mid, htarget, hrest⟩ := h.ended.split
    obtain ⟨_, rfl, -⟩ := Spells.mark_iff.mp hrest
    exact .of_expression hs.1.1.1 htarget (by simp)
  | evaluate value info =>
    simp only [isGrammatical, Expression.startsStatement, Bool.and_eq_true] at hs
    exact .of_expression hs.1 h.ended (by simp)
  | branch condition body alternative info =>
    obtain ⟨_, rfl, -⟩ := Spells.mark_iff.mp h
    exact .of_lead rfl (by decide)
  | loop condition body info =>
    obtain ⟨_, rfl, -⟩ := Spells.mark_iff.mp h
    exact .of_lead rfl (by decide)
  | «return» value? info =>
    obtain ⟨_, rfl, -⟩ := Spells.mark_iff.mp h
    exact .of_lead rfl (by decide)
  | «break» info =>
    obtain ⟨_, rfl, -⟩ := Spells.mark_iff.mp h
    exact .of_lead rfl (by decide)
  | «continue» info =>
    obtain ⟨_, rfl, -⟩ := Spells.mark_iff.mp h
    exact .of_lead rfl (by decide)
  | nested body info =>
    cases body with
    | missing => cases hs
    | braces statements info =>
      obtain ⟨_, rfl, -⟩ := Spells.mark_iff.mp h
      exact .of_lead rfl (by decide)

theorem isGrammatical_of_areGrammatical {inLoop : Bool} {ss : List (Statement α)}
    (h : areGrammatical inLoop ss = true) : ∀ s ∈ ss, s.isGrammatical inLoop = true := by
  induction ss with
  | nil => exact fun _ hs => absurd hs List.not_mem_nil
  | cons s ss ih =>
    simp only [areGrammatical, Bool.and_eq_true] at h
    exact List.forall_mem_cons.mpr ⟨h.1, ih h.2⟩

end Statement

theorem Block.exists_inner {inLoop : Bool} {b : Block Unit} (hb : b.isGrammatical inLoop = true)
    (h : Spells b.spelling before after) :
    ∃ statements inner, b = .braces statements () ∧ before = .mark .leftBrace :: inner ∧
      (∀ s ∈ statements, s.isGrammatical inLoop = true) ∧
      Spells (statements.flatMap Statement.spelling) inner (.mark .rightBrace :: after) := by
  cases b with
  | missing => cases hb
  | braces statements info =>
    obtain ⟨inner, hinner, rfl⟩ := h.enclosed
    rw [Statement.spellings_eq] at hinner
    exact ⟨statements, inner, rfl, rfl, Statement.isGrammatical_of_areGrammatical hb, hinner⟩

theorem Block.lead_eq {inLoop : Bool} {b : Block Unit} (hb : b.isGrammatical inLoop = true)
    (h : Spells b.spelling before after) : lead before = some .leftBrace := by
  obtain ⟨_, inner, -, rfl, -⟩ := Block.exists_inner hb h
  rfl

namespace Grammar

def InBody (flags : Flags) : Prop := flags.noObject = false ∧ flags.inFunction = true

theorem InBody.fits {e : Expression Unit} (hflags : InBody flags) (he : e.isGrammatical = true) :
    e.Fits flags 0 := Expression.fits_of_isGrammatical he hflags.1

theorem finds_keyword : Finds tokens flags 1 (w :: rest) keyword rest
    (Matched fun word => word.1.word = w) := by
  refine finds_consume.bind ?_
  rintro _ ⟨t, rfl, ht⟩
  exact finds_claimComments.bind fun comments _ => .pure ⟨(t, comments), rfl, ht⟩

theorem finds_condition {e : Expression Unit} (he : e.isCondition = true)
    (h : Spells e.spelling before after) (hafter : lead after = some .leftBrace) :
    Finds tokens flags 1 before condition after fun n => n.map Info.erase = e := by
  simp only [Expression.isCondition, Bool.and_eq_true, Bool.not_eq_true'] at he
  refine (Finds.underFlags (finds_requiredExpression ⟨he.1, Nat.zero_le _, fun _ => he.2⟩ h
    (stops_of_lead hafter (by decide) 0))).weaken fun n hn => hn.1

def FindsStatement (tokens : Array Token) (flags : Flags) (rule : StatementRule)
    (s : Statement Unit) (before after : List Word) : Prop :=
  Finds tokens flags 1 before rule after (Matched fun n => n.map Info.erase = s)

theorem finds_declaration (hflags : InBody flags) {name : Identifier Unit}
    {type? : Option (TypeExpression Unit)} {value : Expression Unit}
    (hs : (Statement.declare name type? value ()).isGrammatical flags.inLoop = true)
    (h : Spells (Statement.declare name type? value ()).spelling before after) :
    FindsStatement tokens flags declaration (.declare name type? value ()) before after := by
  simp only [Statement.isGrammatical, Bool.and_eq_true] at hs
  obtain ⟨_, htyped, hassigned⟩ := h.ended.split
  obtain ⟨_, hnamed, htype⟩ := htyped.split
  obtain ⟨_, rfl, hname⟩ := Spells.mark_iff.mp hnamed
  obtain ⟨_, rfl, hvalue⟩ := Spells.mark_iff.mp hassigned
  refine finds_keyword.bind ?_
  rintro _ ⟨⟨word, comments⟩, rfl, -⟩
  refine (finds_requiredIdentifier hs.1.1 hname).bind fun name' hname' => ?_
  refine (finds_annotation? hs.1.2 htype (by simp [AfterType])
    (by simp)).bind fun type' htype' => ?_
  refine (finds_behind (finds_requiredExpression (hflags.fits hs.2) hvalue
    (stops_of_lead rfl (by decide) 0))).bind fun value' hvalue' => ?_
  refine finds_closed word comments fun info _ => ⟨_, rfl, ?_⟩
  simp only [Statement.map, hname', htype', hvalue'.1]

theorem finds_returned (hflags : InBody flags) {value? : Option (Expression Unit)}
    (hvalue : value?.all Expression.isGrammatical = true)
    (h : Spells ((value?.map Expression.spelling).getD []) before (.mark .semicolon :: after)) :
    Finds tokens flags 1 before returned (.mark .semicolon :: after)
      fun n? => n?.map (Expression.map Info.erase) = value? := by
  refine finds_nextKind.bind ?_
  rintro _ rfl
  cases value? with
  | none =>
    cases h
    exact .pure rfl
  | some e =>
    have he : e.isGrammatical = true := hvalue
    have hspells : Spells e.spelling before (.mark .semicolon :: after) := h
    obtain ⟨k, hlead, hsemicolon⟩ := Expression.lead_ne he hspells (k := .semicolon) (by decide)
    obtain ⟨k', hlead', hbrace⟩ := Expression.lead_ne he hspells (k := .rightBrace) (by decide)
    rw [hlead] at hlead' ⊢
    cases hlead'
    split
    next hnone => cases hnone
    next hsome => exact absurd (Option.some.inj hsome) hsemicolon
    next hsome => exact absurd (Option.some.inj hsome) hbrace
    next =>
      refine (finds_expression (hflags.fits he) hspells (stops_of_lead rfl (by decide) 0)).weaken ?_
      rintro _ ⟨n, rfl, hn⟩
      exact congrArg some hn.1

theorem finds_returning (hflags : InBody flags) {value? : Option (Expression Unit)}
    (hvalue : value?.all Expression.isGrammatical = true)
    (h : Spells (Statement.return value? ()).spelling before after) :
    FindsStatement tokens flags returning (.return value? ()) before after := by
  obtain ⟨_, rfl, hinner⟩ := Spells.mark_iff.mp h.ended
  refine finds_keyword.bind ?_
  rintro _ ⟨⟨word, comments⟩, rfl, -⟩
  refine finds_flags.bind ?_
  rintro _ rfl
  simp only [hflags.2, Bool.not_true, Bool.false_eq_true, if_false]
  refine (finds_returned hflags hvalue hinner).bind fun value' hvalue' => ?_
  refine finds_closed word comments fun info _ => ⟨_, rfl, ?_⟩
  simp only [Statement.map, hvalue']

theorem finds_jump (hloop : flags.inLoop = true) {k : Kind} :
    Finds tokens flags 1 (.mark k :: .mark .semicolon :: after) jump after
      (Matched fun n => n.map Info.erase = if k = .breakWord then .break () else .continue ()) := by
  refine finds_keyword.bind ?_
  rintro _ ⟨⟨word, comments⟩, rfl, hword⟩
  have hkind : word.kind = k := word.kind_eq hword
  refine finds_flags.bind ?_
  rintro _ rfl
  simp only [hloop, Bool.not_true, Bool.false_eq_true, if_false]
  refine finds_closed word comments fun info _ => ⟨_, rfl, ?_⟩
  rw [hkind]
  split <;> rfl

theorem finds_assignable {target : Expression Info} (h : target.isAssignable = true) :
    Finds tokens flags 1 before (assignable target) before fun n => n = target := by
  simp only [assignable, h, if_true]
  exact .pure rfl

theorem finds_assignment (hflags : InBody flags) {target value : Expression Unit}
    (hs : (Statement.assign target value ()).isGrammatical flags.inLoop = true)
    (h : Spells (Statement.assign target value ()).spelling before after) :
    FindsStatement tokens flags evaluation (.assign target value ()) before after := by
  simp only [Statement.isGrammatical, Expression.startsStatement, Bool.and_eq_true] at hs
  obtain ⟨_, htarget, hassigned⟩ := h.ended.split
  obtain ⟨_, rfl, hvalue⟩ := Spells.mark_iff.mp hassigned
  refine (finds_expression (hflags.fits hs.1.1.1) htarget (stops_of_lead rfl (by decide) 0)).bind ?_
  rintro _ ⟨n, rfl, hn, hinfo⟩
  obtain ⟨extent, hextent⟩ := Option.isSome_iff_exists.mp hinfo
  simp only [hextent]
  refine (finds_accept rfl).bind ?_
  rintro _ ⟨t, rfl, -⟩
  refine (finds_requiredExpression (hflags.fits hs.2) hvalue
    (stops_of_lead rfl (by decide) 0)).bind fun value' hvalue' => ?_
  have hassignable : n.isAssignable = true := by
    rw [← Expression.isAssignable_map Info.erase n, hn]
    exact hs.1.2
  refine (finds_assignable hassignable).bind ?_
  rintro _ rfl
  refine finds_closed extent.first [] fun info _ => ⟨_, rfl, ?_⟩
  simp only [Statement.map, hn, hvalue'.1]

theorem finds_evaluation (hflags : InBody flags) {value : Expression Unit}
    (hs : (Statement.evaluate value ()).isGrammatical flags.inLoop = true)
    (h : Spells (Statement.evaluate value ()).spelling before after) :
    FindsStatement tokens flags evaluation (.evaluate value ()) before after := by
  simp only [Statement.isGrammatical, Expression.startsStatement, Bool.and_eq_true] at hs
  refine (finds_expression (hflags.fits hs.1) h.ended (stops_of_lead rfl (by decide) 0)).bind ?_
  rintro _ ⟨n, rfl, hn, hinfo⟩
  obtain ⟨extent, hextent⟩ := Option.isSome_iff_exists.mp hinfo
  simp only [hextent]
  refine (finds_accept_none (by simp)).bind ?_
  rintro _ rfl
  refine finds_closed extent.first [] fun info _ => ⟨_, rfl, ?_⟩
  simp only [Statement.map, hn]

def FindsStatements (tokens : Array Token) (rule : StatementRule) (bound : Nat) : Prop :=
  ∀ flags, InBody flags → ∀ s : Statement Unit, s.isGrammatical flags.inLoop = true →
    FindsItem tokens flags 1 rule bound (fun there => lead there ≠ some .elseWord)
      Statement.spelling (Statement.map Info.erase) s

variable {statement : StatementRule}

theorem finds_bracedStatements (hstatement : FindsStatements tokens statement bound)
    (hflags : InBody flags) {b : Block Unit} (hb : b.isGrammatical flags.inLoop = true)
    (h : Spells b.spelling before after) (hbound : before.length < bound + 1) :
    Finds tokens flags 1 before (bracedStatements statement) after
      (Matched fun n => n.map Info.erase = b) := by
  obtain ⟨statements, inner, rfl, rfl, hok, hinner⟩ := Block.exists_inner hb h
  refine (finds_accept rfl).bind ?_
  rintro _ ⟨opening, rfl, -⟩
  refine finds_claimComments.bind fun comments _ => ?_
  refine (finds_run { SeriesShape.upTo .rightBrace with resync := some .statementEnds }
    (fun there => lead there ≠ some .elseWord) rfl (.inr ⟨.rightBrace, rfl, rfl⟩)
    (by simp) (fun s hs here there hspells => ?_)
    (fun s hs => hstatement flags hflags s (hok s hs)) hinner
    (Nat.lt_of_succ_lt_succ hbound)).bind fun found hfound => ?_
  · have hopens := Statement.opens (hok s hs) hspells
    obtain ⟨w, hw⟩ := Statement.exists_word (hok s hs)
    obtain ⟨k, hk, hne⟩ := hopens.nonempty
    exact ⟨hopens.notElse, hspells.length_lt hw, k, hk, fun h => hne (Option.some.inj h).symm⟩
  · refine finds_closed opening comments fun info _ => ⟨_, rfl, ?_⟩
    simp only [Block.map, Statement.mapAll_eq, hfound]

theorem finds_block (hstatement : FindsStatements tokens statement bound)
    (hflags : InBody flags) {b : Block Unit} (hb : b.isGrammatical flags.inLoop = true)
    (h : Spells b.spelling before after) (hbound : before.length < bound + 1) :
    Finds tokens flags 1 before (block statement) after (Matched fun n => n.map Info.erase = b) :=
  (finds_bracedStatements hstatement hflags hb h hbound).remembered

theorem finds_requiredBlock (hstatement : FindsStatements tokens statement bound)
    (hflags : InBody flags) {b : Block Unit} (hb : b.isGrammatical flags.inLoop = true)
    (h : Spells b.spelling before after) (hbound : before.length < bound + 1) :
    Finds tokens flags 1 before (requiredBlock statement) after fun n => n.map Info.erase = b :=
  finds_required (finds_block hstatement hflags hb h hbound)

theorem finds_alternative (hstatement : FindsStatements tokens statement bound)
    (hflags : InBody flags) {a : Alternative Unit} (ha : a.isGrammatical flags.inLoop = true)
    (h : Spells a.spelling before after) (hbound : before.length < bound + 1)
    (hafter : lead after ≠ some .elseWord) :
    Finds tokens flags 1 before (alternative statement) after fun n => n.map Info.erase = a := by
  cases a with
  | absent =>
    cases h
    refine (finds_accept_none hafter).bind ?_
    rintro _ rfl
    exact .pure rfl
  | elseIf s =>
    simp only [Alternative.isGrammatical, Bool.and_eq_true] at ha
    obtain ⟨words, rfl, hs⟩ := Spells.mark_iff.mp h
    -- What follows `else` tells which of the two alternatives it is.
    have hlead : lead words = some .ifWord := by
      cases s with
      | branch condition body alternative info =>
        obtain ⟨_, rfl, -⟩ := Spells.mark_iff.mp hs
        rfl
      | _ => cases ha.1
    refine (finds_accept rfl).bind ?_
    rintro _ ⟨t, rfl, -⟩
    refine (finds_isNext .ifWord).bind ?_
    rintro _ rfl
    simp only [hlead, decide_true, if_true]
    refine (hstatement flags hflags s ha.2 words after hs
      (Nat.lt_of_succ_lt_succ hbound) hafter).bind ?_
    rintro _ ⟨n, rfl, hn⟩
    exact .pure (congrArg Alternative.elseIf hn)
  | elseBlock b =>
    obtain ⟨words, rfl, hb⟩ := Spells.mark_iff.mp h
    have hlead := Block.lead_eq ha hb
    refine (finds_accept rfl).bind ?_
    rintro _ ⟨t, rfl, -⟩
    refine (finds_isNext .ifWord).bind ?_
    rintro _ rfl
    simp only [hlead, Option.some.injEq, reduceCtorEq, decide_false, Bool.false_eq_true, if_false]
    exact (finds_requiredBlock hstatement hflags ha hb
      (Nat.lt_of_succ_lt hbound)).bind fun n hn => .pure (congrArg Alternative.elseBlock hn)

theorem finds_branch (hstatement : FindsStatements tokens statement bound) (hflags : InBody flags)
    {e : Expression Unit} {b : Block Unit} {a : Alternative Unit}
    (hs : (Statement.branch e b a ()).isGrammatical flags.inLoop = true)
    (h : Spells (Statement.branch e b a ()).spelling before after)
    (hbound : before.length < bound + 1) (hafter : lead after ≠ some .elseWord) :
    FindsStatement tokens flags (branch statement) (.branch e b a ()) before after := by
  simp only [Statement.isGrammatical, Bool.and_eq_true] at hs
  obtain ⟨_, hrest, halternative⟩ := h.split
  obtain ⟨_, hstart, hbody⟩ := hrest.split
  obtain ⟨_, rfl, hcondition⟩ := Spells.mark_iff.mp hstart
  have hlength := hcondition.length_le
  have hlength' := hbody.length_le
  rw [List.length_cons] at hbound
  refine finds_keyword.bind ?_
  rintro _ ⟨⟨word, comments⟩, rfl, -⟩
  refine (finds_condition hs.1.1 hcondition (Block.lead_eq hs.1.2 hbody)).bind fun e' he' => ?_
  refine (finds_requiredBlock hstatement hflags hs.1.2 hbody (by omega)).bind fun b' hb' => ?_
  refine (finds_alternative hstatement hflags hs.2 halternative (by omega)
    hafter).bind fun a' ha' => ?_
  refine (finds_infoFrom word comments).bind fun info _ => .pure ⟨_, rfl, ?_⟩
  simp only [Statement.map, he', hb', ha']

theorem InBody.underLoop (hflags : InBody flags) :
    InBody (flags.adjust { inLoop := true } {}) := by
  simp [InBody, Flags.adjust, hflags.1, hflags.2]

theorem finds_whileLoop (hstatement : FindsStatements tokens statement bound)
    (hflags : InBody flags) {e : Expression Unit} {b : Block Unit}
    (hs : (Statement.loop e b ()).isGrammatical flags.inLoop = true)
    (h : Spells (Statement.loop e b ()).spelling before after)
    (hbound : before.length < bound + 1) :
    FindsStatement tokens flags (whileLoop statement) (.loop e b ()) before after := by
  simp only [Statement.isGrammatical, Bool.and_eq_true] at hs
  obtain ⟨_, hstart, hbody⟩ := h.split
  obtain ⟨_, rfl, hcondition⟩ := Spells.mark_iff.mp hstart
  have hlength := hcondition.length_le
  rw [List.length_cons] at hbound
  -- The body is parsed under the flag that it is grammatical under.
  have hbody' : b.isGrammatical (flags.adjust { inLoop := true } {}).inLoop = true := by
    rw [inLoop_adjust]
    exact hs.2
  refine finds_keyword.bind ?_
  rintro _ ⟨⟨word, comments⟩, rfl, -⟩
  refine (finds_condition hs.1 hcondition (Block.lead_eq hs.2 hbody)).bind fun e' he' => ?_
  refine Finds.bind (Finds.underFlags (finds_requiredBlock hstatement hflags.underLoop hbody' hbody
    (by omega))) fun b' hb' => ?_
  refine (finds_infoFrom word comments).bind fun info _ => .pure ⟨_, rfl, ?_⟩
  simp only [Statement.map, he', hb']

theorem finds_nestedBlock (hstatement : FindsStatements tokens statement bound)
    (hflags : InBody flags) {b : Block Unit} (hb : b.isGrammatical flags.inLoop = true)
    (h : Spells b.spelling before after) (hbound : before.length < bound + 1) :
    FindsStatement tokens flags (nestedBlock statement) (.nested b ()) before after := by
  refine (finds_block hstatement hflags hb h hbound).bind ?_
  rintro _ ⟨n, rfl, hn⟩
  exact .pure ⟨_, rfl, congrArg (Statement.nested · ()) hn⟩

theorem finds_objectAhead_block {inLoop : Bool} {b : Block Unit}
    (hb : b.isGrammatical inLoop = true) (h : Spells b.spelling before after) :
    Finds tokens flags 1 before (objectAhead false) before fun ahead => ahead = false := by
  obtain ⟨statements, inner, -, rfl, hok, hinner⟩ := Block.exists_inner hb h
  -- What is behind the brace is the first word of a statement, or the brace that closes the block.
  cases statements with
  | nil =>
    cases hinner
    exact finds_objectAhead_empty false rfl
  | cons s statements =>
    rw [List.flatMap_cons] at hinner
    obtain ⟨_, hfirst, -⟩ := hinner.split
    have hopens := Statement.opens (hok s List.mem_cons_self) hfirst
    obtain ⟨k, hk, hbrace⟩ := hopens.nonempty
    have hbrace' : lead inner ≠ some .rightBrace := fun h =>
      hbrace (Option.some.inj (hk.symm.trans h))
    by_cases hname : lead inner = some .identifier
    · obtain ⟨v, more, rfl⟩ : ∃ v more, inner = v :: more := by
        cases inner with
        | nil => cases hname
        | cons v more => exact ⟨v, more, rfl⟩
      refine (finds_objectAhead_name false (Option.some.inj hname)).weaken ?_
      rintro _ rfl
      exact decide_eq_false (hopens.name hname)
    · exact finds_objectAhead_other false hbrace' hname

theorem finds_startingWith {e : Expression Unit} {s : Statement Unit}
    (he : e.startsStatement = true) (h : Spells e.spelling before mid)
    (hmid : lead mid ≠ some .colon)
    (hevaluation : FindsStatement tokens flags evaluation s before after) :
    FindsStatement tokens flags (anyStatement statement) s before after := by
  simp only [Expression.startsStatement, Bool.and_eq_true, Bool.not_eq_true'] at he
  have hother : ∀ k, (k ∉ Expression.leads ∧ k ≠ .minus ∧ k ≠ .bang) → lead before ≠ some k := by
    intro k hk hlead
    obtain ⟨j, hj, hne⟩ := Expression.lead_ne he.1 h hk
    exact hne (Option.some.inj (hj.symm.trans hlead))
  refine finds_nextKind.bind ?_
  rintro _ rfl
  split
  next hnone =>
    obtain ⟨j, hj, -⟩ := Expression.lead_ne he.1 h (k := .rightBrace) (by decide)
    cases hj.symm.trans hnone
  next hlead => exact absurd hlead (hother _ (by decide))
  next hlead => exact absurd hlead (hother _ (by decide))
  next hlead => exact absurd hlead (hother _ (by decide))
  next hlead => exact absurd hlead (hother _ (by decide))
  next hlead => exact absurd hlead (hother _ (by decide))
  next hlead => exact absurd hlead (hother _ (by decide))
  next hlead =>
    obtain ⟨name, rest, rfl⟩ := (Expression.opens e he.1 h hmid).brace hlead he.2
    refine (finds_objectAhead_name false rfl).bind ?_
    rintro _ rfl
    exact hevaluation
  next => exact hevaluation

theorem finds_anyStatement (hstatement : FindsStatements tokens statement bound) :
    FindsStatements tokens (anyStatement statement) (bound + 1) := by
  intro flags hflags s hs before after h hbound hafter
  cases s with
  | assign target value info =>
    have hfound : FindsStatement tokens flags evaluation _ before after :=
      finds_assignment hflags hs h
    simp only [Statement.isGrammatical, Bool.and_eq_true] at hs
    obtain ⟨_, htarget, hrest⟩ := h.ended.split
    obtain ⟨_, rfl, -⟩ := Spells.mark_iff.mp hrest
    exact finds_startingWith hs.1.1 htarget (by simp) hfound
  | evaluate value info =>
    exact finds_startingWith hs h.ended (by simp) (finds_evaluation hflags hs h)
  | declare name type? value info =>
    have hfound : FindsStatement tokens flags declaration _ before after :=
      finds_declaration hflags hs h
    obtain ⟨_, rfl, -⟩ := Spells.mark_iff.mp h
    refine finds_nextKind.bind ?_
    rintro _ rfl
    exact hfound
  | branch condition body alternative info =>
    have hfound := finds_branch hstatement hflags hs h hbound hafter
    obtain ⟨_, rfl, -⟩ := Spells.mark_iff.mp h
    refine finds_nextKind.bind ?_
    rintro _ rfl
    exact hfound
  | loop condition body info =>
    have hfound := finds_whileLoop hstatement hflags hs h hbound
    obtain ⟨_, rfl, -⟩ := Spells.mark_iff.mp h
    refine finds_nextKind.bind ?_
    rintro _ rfl
    exact hfound
  | «return» value? info =>
    have hfound : FindsStatement tokens flags returning _ before after :=
      finds_returning hflags hs h
    obtain ⟨_, rfl, -⟩ := Spells.mark_iff.mp h
    refine finds_nextKind.bind ?_
    rintro _ rfl
    exact hfound
  | «break» info =>
    obtain ⟨_, rfl, hsemicolon⟩ := Spells.mark_iff.mp h
    obtain ⟨_, rfl, hnil⟩ := Spells.mark_iff.mp hsemicolon
    cases hnil
    refine finds_nextKind.bind ?_
    rintro _ rfl
    exact finds_jump hs
  | «continue» info =>
    obtain ⟨_, rfl, hsemicolon⟩ := Spells.mark_iff.mp h
    obtain ⟨_, rfl, hnil⟩ := Spells.mark_iff.mp hsemicolon
    cases hnil
    refine finds_nextKind.bind ?_
    rintro _ rfl
    exact finds_jump hs
  | nested body info =>
    have hlead := Block.lead_eq hs h
    refine finds_nextKind.bind ?_
    rintro _ rfl
    rw [hlead]
    refine (finds_objectAhead_block hs h).bind ?_
    rintro _ rfl
    exact finds_nestedBlock hstatement hflags hs h hbound

theorem finds_statementWithin (depth : Nat) :
    FindsStatements tokens (statementWithin depth) depth := by
  induction depth with
  | zero => exact fun _ _ _ _ _ _ _ hbound => absurd hbound (Nat.not_lt_zero _)
  | succ depth ih =>
    intro flags hflags s hs before after h hbound hafter
    exact (finds_anyStatement ih flags hflags s hs before after h hbound hafter).remembered

theorem finds_statement (bound : Nat) : FindsStatements tokens Grammar.statement bound := by
  intro flags hflags s hs before after h _ hafter
  refine Finds.bounded fun hsize => finds_maxDepth.bind ?_
  rintro _ rfl
  exact finds_statementWithin _ flags hflags s hs before after h (Nat.lt_succ_of_le hsize) hafter

end Grammar

end Reparse
