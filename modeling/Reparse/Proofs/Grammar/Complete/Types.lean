import Reparse.Proofs.Grammar.Sound.Types
import Reparse.Proofs.Parser.FindSeries

/-!
# Completeness of the grammar of types

Wherever a type is written, and what follows it does not go on with it, the rule for types finds
that type. Results are compared with their annotations erased.
-/

namespace Reparse

open Reparse.Parser

variable {α β γ : Type} {tokens : Array Token} {flags : Flags} {before mid after : List Word}

def Info.erase (_ : Info) : Unit := ()

theorem Token.kind_eq {t : Token} {w : Word} (h : t.word = w) : t.kind = w.kind :=
  congrArg Word.kind h

theorem Token.text_eq {t : Token} {w : Word} (h : t.word = w) : t.text = w.text :=
  congrArg Word.text h

theorem Identifier.spells {n : Identifier Unit} (hn : n.isNamed = true)
    (h : Spells n.spelling before after) :
    ∃ name, n = .named name () ∧ before = ⟨.identifier, name⟩ :: after := by
  cases n with
  | missing => cases hn
  | named name info =>
    obtain ⟨words, rfl, hnil⟩ := Spells.word_iff.mp h
    cases hnil
    exact ⟨name, rfl, rfl⟩

theorem Field.lead_eq {slots : β → List Slot} {x : Field Unit β} (hx : x.name.isNamed = true)
    (h : Spells (x.slots slots) before after) : lead before = some .identifier := by
  obtain ⟨mid, h₁, -⟩ := h.split
  obtain ⟨name, -, rfl⟩ := Identifier.spells hx h₁
  rfl

namespace Grammar

theorem finds_identifier {n : Identifier Unit} (hn : n.isNamed = true)
    (h : Spells n.spelling before after) : Finds tokens flags 1 before identifier after
      (Matched fun m => m.map Info.erase = n) := by
  obtain ⟨name, rfl, rfl⟩ := Identifier.spells hn h
  refine (finds_accept rfl).bind ?_
  rintro _ ⟨t, rfl, ht⟩
  refine finds_claimComments.bind fun comments _ => .pure ⟨_, rfl, ?_⟩
  rw [identifierOf, t.text_eq ht]
  rfl

theorem finds_requiredIdentifier {n : Identifier Unit} (hn : n.isNamed = true)
    (h : Spells n.spelling before after) : Finds tokens flags 1 before requiredIdentifier after
      fun m => m.map Info.erase = n :=
  finds_required (finds_identifier hn h)

theorem finds_behind {k : Kind} {value : Parser β} {standIn : β} {Q : β → Prop}
    (hvalue : Finds tokens flags 1 mid value after Q) :
    Finds tokens flags 1 (.mark k :: mid) (behind k value standIn) after Q := by
  refine (finds_require rfl).bind ?_
  rintro _ ⟨t, rfl, -⟩
  exact hvalue

theorem finds_field {bound : Nat} {Follow : List Word → Prop} {value : Parser β} {standIn : β}
    {slots : γ → List Slot} {erase : β → γ} {x : Field Unit γ} (hx : x.name.isNamed = true)
    (hvalue : ∀ here there, Spells (slots x.value) here there → here.length < bound → Follow there →
      Finds tokens flags 1 here value there fun v => erase v = x.value) :
    FindsItem tokens flags 1 (field value standIn) bound Follow (Field.slots slots)
      (Field.map Info.erase erase) x := by
  intro here there h hbound hfollow
  obtain ⟨mid, h₁, h₂⟩ := h.split
  obtain ⟨words, rfl, h₃⟩ := Spells.mark_iff.mp h₂
  have hlength := h₁.length_le
  rw [List.length_cons] at hlength
  refine (finds_identifier hx h₁).bind ?_
  rintro _ ⟨name, rfl, hname⟩
  refine (finds_behind (hvalue words there h₃ (by omega) hfollow)).bind fun v hv => ?_
  refine (finds_infoAfter _).bind fun info _ => .pure ⟨_, rfl, ?_⟩
  obtain ⟨n, y, i⟩ := x
  simp only [Field.map, hname, hv]

def AfterType (after : List Word) : Prop :=
  lead after ≠ some .leftBracket ∧ lead after ≠ some .pipe

def FindsTypes (tokens : Array Token) (flags : Flags) (type : Parser (Option (TypeExpression Info)))
    (bound : Nat) : Prop :=
  ∀ t : TypeExpression Unit, t.isGrammatical = true → FindsItem tokens flags 1 type bound AfterType
    TypeExpression.spelling (TypeExpression.map Info.erase) t

variable {type : Parser (Option (TypeExpression Info))} {bound : Nat}

theorem finds_requiredInner (htype : FindsTypes tokens flags type bound) {t : TypeExpression Unit}
    (ht : t.isGrammatical = true) (h : Spells t.spelling before after)
    (hbound : before.length < bound) (hafter : AfterType after) :
    Finds tokens flags 1 before (required type .missingType .missing) after
      fun n => n.map Info.erase = t :=
  finds_required (htype t ht before after h hbound hafter)

end Grammar

namespace TypeExpression

theorem isGrammatical_of_areFields {fields : List (Field α (TypeExpression α))}
    (h : areFields fields = true) :
    ∀ x ∈ fields, x.name.isNamed = true ∧ x.value.isGrammatical = true := by
  induction fields with
  | nil => exact fun _ hx => absurd hx List.not_mem_nil
  | cons x fields ih =>
    simp only [areFields, Bool.and_eq_true] at h
    exact List.forall_mem_cons.mpr ⟨h.1, ih h.2⟩

theorem isGrammatical_of_areMembers {ts : List (TypeExpression α)} (h : areMembers ts = true) :
    ∀ t ∈ ts, t.isGrammatical = true ∧ t.isUnion = false := by
  induction ts with
  | nil => exact fun _ ht => absurd ht List.not_mem_nil
  | cons t ts ih =>
    simp only [areMembers, Bool.and_eq_true, Bool.not_eq_true'] at h
    exact List.forall_mem_cons.mpr ⟨h.1, ih h.2⟩

def isSingle : TypeExpression α → Bool
  | .named .. | .record .. | .paren .. => true
  | _ => false

end TypeExpression

namespace Grammar

variable {type : Parser (Option (TypeExpression Info))} {bound : Nat}

theorem finds_recordFields (htype : FindsTypes tokens flags type bound)
    {fields : List (Field Unit (TypeExpression Unit))}
    (hfields : ∀ x ∈ fields, x.name.isNamed = true ∧ x.value.isGrammatical = true)
    (h : Spells (Slot.listed (fields.map (Field.slots TypeExpression.spelling))) before
      (.mark .rightBrace :: after))
    (hbound : before.length < bound) :
    Finds tokens flags 1 before
      (items (.commas .rightBrace) (field (required type .missingType .missing) .missing))
      (.mark .rightBrace :: after)
      fun found => found.map (Field.map Info.erase (TypeExpression.map Info.erase)) = fields := by
  rw [← Slot.commas_true] at h
  refine finds_commas (.commas .rightBrace) rfl rfl (by decide) rfl
    (fun x hx _ _ hspells => ⟨_, Field.lead_eq (hfields x hx).1 hspells, by decide⟩)
    (fun x hx => finds_field (hfields x hx).1 fun here there hspells hlength hthere => ?_) h hbound
  refine finds_requiredInner htype (hfields x hx).2 hspells hlength ?_
  rcases hthere with hthere | hthere <;> simp [AfterType, hthere]

theorem finds_singleType (htype : FindsTypes tokens flags type bound) {t : TypeExpression Unit}
    (ht : t.isGrammatical = true) (hsingle : t.isSingle = true)
    (h : Spells t.spelling before after) (hbound : before.length < bound + 1) :
    Finds tokens flags 1 before (singleType type) after
      (Matched fun n => n.map Info.erase = t) := by
  cases t with
  | missing => cases ht
  | array => cases hsingle
  | union => cases hsingle
  | named name info =>
    obtain ⟨name, rfl, rfl⟩ := Identifier.spells ht h
    refine finds_nextWord.bind ?_
    rintro _ ⟨t, rfl, hword⟩
    simp only [t.kind_eq hword]
    refine finds_consume.bind fun _ _ => finds_claimComments.bind fun comments _ => .pure ?_
    refine ⟨_, rfl, ?_⟩
    rw [identifierOf, t.text_eq hword]
    rfl
  | record fields info =>
    obtain ⟨words, hinner, rfl⟩ := h.enclosed
    refine finds_nextWord.bind ?_
    rintro _ ⟨t, rfl, hword⟩
    simp only [t.kind_eq hword]
    refine finds_consume.bind fun _ _ => finds_claimComments.bind fun comments _ => ?_
    rw [TypeExpression.fieldSpellings_eq] at hinner
    refine (finds_recordFields htype (TypeExpression.isGrammatical_of_areFields ht) hinner
      (Nat.lt_of_succ_lt_succ hbound)).bind fun found hfound => ?_
    refine finds_closed t comments fun info _ => ⟨_, rfl, ?_⟩
    simp only [TypeExpression.map, TypeExpression.mapFields_eq, hfound]
  | paren inner info =>
    obtain ⟨words, hinner, rfl⟩ := h.enclosed
    refine finds_nextWord.bind ?_
    rintro _ ⟨t, rfl, hword⟩
    simp only [t.kind_eq hword]
    refine finds_consume.bind fun _ _ => finds_claimComments.bind fun comments _ => ?_
    have hok : inner.isGrammatical = true := ht
    refine (finds_requiredInner htype hok hinner (Nat.lt_of_succ_lt_succ hbound)
      (by simp [AfterType])).bind fun n hn => ?_
    refine finds_closed t comments fun info _ => ⟨_, rfl, ?_⟩
    simp only [TypeExpression.map, hn]

theorem exists_arrayTurns (t : TypeExpression Unit) (ht : t.isGrammatical = true)
    (hunion : t.isUnion = false) {before after : List Word} (h : Spells t.spelling before after) :
    ∃ (atom : TypeExpression Unit) (mid : List Word), atom.isGrammatical = true ∧
      atom.isSingle = true ∧ Spells atom.spelling before mid ∧
      Turns tokens flags 1 arrayTurn (fun n => n.map Info.erase = atom) mid
        (fun n => n.map Info.erase = t) after := by
  cases t with
  | missing => cases ht
  | union => cases hunion
  | named name info => exact ⟨_, after, ht, rfl, h, .none⟩
  | record fields info => exact ⟨_, after, ht, rfl, h, .none⟩
  | paren inner info => exact ⟨_, after, ht, rfl, h, .none⟩
  | array element info =>
    simp only [TypeExpression.isGrammatical, Bool.and_eq_true, Bool.not_eq_true'] at ht
    obtain ⟨mid, helement, hbrackets⟩ := h.split
    obtain ⟨mid', rfl, hclose⟩ := Spells.mark_iff.mp hbrackets
    obtain ⟨_, rfl, hnil⟩ := Spells.mark_iff.mp hclose
    cases hnil
    obtain ⟨atom, start, hok, hsingle, hatom, hturns⟩ :=
      exists_arrayTurns element ht.1 ht.2 helement
    refine ⟨atom, start, hok, hsingle, hatom, hturns.one (fun n hn => ?_) ?_⟩
    · refine (finds_accept rfl).bind ?_
      rintro _ ⟨t, rfl, -⟩
      refine (finds_require rfl).bind fun _ _ => (finds_infoAfter _).bind fun info _ => .pure ?_
      refine ⟨_, rfl, ?_⟩
      simp only [TypeExpression.map, hn]
    · simp only [List.length_cons]
      omega

theorem finds_arrayOrSingle (htype : FindsTypes tokens flags type bound) {t : TypeExpression Unit}
    (ht : t.isGrammatical = true) (hunion : t.isUnion = false)
    (h : Spells t.spelling before after) (hbound : before.length < bound + 1)
    (hafter : lead after ≠ some .leftBracket) :
    Finds tokens flags 1 before (arrayOrSingle type) after
      (Matched fun n => n.map Info.erase = t) := by
  obtain ⟨atom, mid, hok, hsingle, hatom, hturns⟩ := exists_arrayTurns t ht hunion h
  refine (finds_singleType htype hok hsingle hatom hbound).bind ?_
  rintro _ ⟨n, rfl, hn⟩
  refine Finds.map (hturns.loop hn fun n hn => ?_) fun n hn => ⟨n, rfl, hn⟩
  refine (finds_accept_none hafter).bind ?_
  rintro _ rfl
  exact .pure ⟨n, rfl, hn⟩

theorem finds_memberTurns (htype : FindsTypes tokens flags type bound)
    {ts : List (TypeExpression Unit)}
    (hts : ∀ t ∈ ts, t.isGrammatical = true ∧ t.isUnion = false) {here : List Word}
    (h : Spells (ts.flatMap fun t => .mark .pipe :: t.spelling) here after)
    (hbound : here.length < bound + 1) (hafter : AfterType after)
    (members : Array (TypeExpression Info)) (n : Nat) (hn : here.length < n) :
    Finds tokens flags 1 here (iterate (memberTurn type) n members) after fun found =>
      found.toList.map (TypeExpression.map Info.erase) =
        members.toList.map (TypeExpression.map Info.erase) ++ ts := by
  induction ts generalizing here members n with
  | nil =>
    cases h
    refine finds_iterate_done ((finds_accept_none hafter.2).bind ?_) (by omega)
    rintro _ rfl
    exact .pure ⟨members, rfl, (List.append_nil _).symm⟩
  | cons t ts ih =>
    obtain ⟨ht, hts⟩ := List.forall_mem_cons.mp hts
    obtain ⟨n, rfl⟩ := Nat.exists_eq_succ_of_ne_zero (Nat.ne_of_gt (Nat.zero_lt_of_lt hn))
    rw [List.flatMap_cons] at h
    obtain ⟨mid, hmember, hmore⟩ := h.split
    obtain ⟨words, rfl, ht'⟩ := Spells.mark_iff.mp hmember
    have hlength := ht'.length_le
    rw [List.length_cons] at hbound hn
    have hmid : lead mid ≠ some .leftBracket := by
      cases ts with
      | nil =>
        cases hmore
        exact hafter.1
      | cons next ts =>
        rw [List.flatMap_cons] at hmore
        obtain ⟨_, hnext, -⟩ := hmore.split
        obtain ⟨_, rfl, -⟩ := Spells.mark_iff.mp hnext
        simp
    have hturn : Finds tokens flags 1 (.mark .pipe :: words) (memberTurn type members) mid
        (Again fun found => found.toList.map (TypeExpression.map Info.erase) =
          members.toList.map (TypeExpression.map Info.erase) ++ [t]) := by
      refine (finds_accept rfl).bind ?_
      rintro _ ⟨_, rfl, -⟩
      refine (finds_required (finds_arrayOrSingle htype ht.1 ht.2 ht' (by omega) hmid)).bind
        fun n hn => .pure ⟨_, rfl, ?_⟩
      simp [hn]
    refine finds_iterate_again hturn fun found hfound => (ih hts hmore (by omega) found n
      (by omega)).weaken fun found' hfound' => ?_
    rw [hfound', hfound, List.append_assoc, List.singleton_append]

theorem finds_typeAlternatives (htype : FindsTypes tokens flags type bound)
    {ts : List (TypeExpression Unit)}
    (hts : ∀ t ∈ ts, t.isGrammatical = true ∧ t.isUnion = false)
    (h : Spells (ts.flatMap fun t => .mark .pipe :: t.spelling) before after)
    (hbound : before.length < bound + 1) (hafter : AfterType after) :
    Finds tokens flags 1 before (typeAlternatives type) after
      fun found => found.map (TypeExpression.map Info.erase) = ts :=
  Finds.bind (finds_loop fun n hn => finds_memberTurns htype hts h hbound hafter #[] n hn)
    fun _ hfound => .pure hfound

theorem finds_union (htype : FindsTypes tokens flags type bound)
    {members : List (TypeExpression Unit)}
    (ht : (TypeExpression.union members ()).isGrammatical = true)
    (h : Spells (TypeExpression.union members ()).spelling before after)
    (hbound : before.length < bound + 1) (hafter : AfterType after) :
    Finds tokens flags 1 before (typeUnion type) after
      (Matched fun n => n.map Info.erase = .union members ()) := by
  simp only [TypeExpression.isGrammatical, Bool.and_eq_true, decide_eq_true_eq] at ht
  obtain ⟨hlength, hgrammatical⟩ := ht
  obtain ⟨head, next, more, rfl⟩ : ∃ head next more, members = head :: next :: more := by
    cases members with
    | nil => exact absurd hlength (Nat.not_succ_le_zero 1)
    | cons head rest =>
      cases rest with
      | nil => exact absurd hlength (Nat.lt_irrefl 1)
      | cons next more => exact ⟨head, next, more, rfl⟩
  obtain ⟨hhead, hmembers⟩ :=
    List.forall_mem_cons.mp (TypeExpression.isGrammatical_of_areMembers hgrammatical)
  rw [TypeExpression.spelling, TypeExpression.spellings_eq, List.map_cons, Slot.separated_cons,
    List.flatMap_map] at h
  obtain ⟨mid, hfirst, hmore⟩ := h.split
  have hmid := hfirst.length_le
  have hpipe : lead mid = some .pipe := by
    rw [List.flatMap_cons] at hmore
    obtain ⟨_, hnext, -⟩ := hmore.split
    obtain ⟨_, rfl, -⟩ := Spells.mark_iff.mp hnext
    rfl
  refine (finds_arrayOrSingle htype hhead.1 hhead.2 hfirst hbound (by simp [hpipe])).bind ?_
  rintro _ ⟨n, rfl, hn⟩
  refine (finds_isNext _).bind fun b hb => ?_
  rw [hb, hpipe, decide_eq_true rfl]
  refine (finds_typeAlternatives htype hmembers hmore (by omega) hafter).bind fun found hfound => ?_
  refine (finds_infoAfter _).bind fun info _ => .pure ⟨_, rfl, ?_⟩
  simp only [TypeExpression.map, TypeExpression.mapAll_eq, List.map_cons, hn, hfound]

theorem finds_typeUnion (htype : FindsTypes tokens flags type bound) :
    FindsTypes tokens flags (typeUnion type) (bound + 1) := by
  intro t ht before after h hbound hafter
  by_cases hunion : t.isUnion = true
  · cases t with
    | union members info => exact finds_union htype ht h hbound hafter
    | _ => cases hunion
  · have hunion : t.isUnion = false := Bool.eq_false_iff.mpr hunion
    refine (finds_arrayOrSingle htype ht hunion h hbound hafter.1).bind ?_
    rintro _ ⟨n, rfl, hn⟩
    refine (finds_isNext _).bind fun b hb => ?_
    rw [hb, decide_eq_false hafter.2]
    exact .pure ⟨n, rfl, hn⟩

theorem finds_typeWithin (depth : Nat) : FindsTypes tokens flags (typeWithin depth) depth := by
  induction depth with
  | zero => exact fun _ _ _ _ _ hbound => absurd hbound (Nat.not_lt_zero _)
  | succ depth ih =>
    intro t ht before after h hbound hafter
    exact (finds_typeUnion ih t ht before after h hbound hafter).remembered

theorem finds_maxDepth : Finds tokens flags 1 before maxDepth before
    fun depth => depth = tokens.size + 1 :=
  .of_still (fun _ => rfl) (fun _ => rfl) (fun _ => rfl) (fun _ h => h) fun _ _ => rfl

theorem finds_typeExpression {t : TypeExpression Unit} (ht : t.isGrammatical = true)
    (h : Spells t.spelling before after) (hafter : AfterType after) :
    Finds tokens flags 1 before typeExpression after (Matched fun n => n.map Info.erase = t) := by
  refine Finds.bounded fun hsize => finds_maxDepth.bind ?_
  rintro _ rfl
  exact finds_typeWithin _ t ht before after h (Nat.lt_succ_of_le hsize) hafter

theorem finds_requiredType {t : TypeExpression Unit} (ht : t.isGrammatical = true)
    (h : Spells t.spelling before after) (hafter : AfterType after) :
    Finds tokens flags 1 before requiredType after fun n => n.map Info.erase = t :=
  finds_required (finds_typeExpression ht h hafter)

theorem finds_markedType {k : Kind} {type? : Option (TypeExpression Unit)}
    (htype : type?.all TypeExpression.isGrammatical = true)
    (h : Spells (Slot.behind k (type?.map TypeExpression.spelling)) before after)
    (hafter : AfterType after) (hk : lead after ≠ some k) :
    Finds tokens flags 1 before
      (do
        match ← accept k with
        | some _ => return some (← requiredType)
        | none => return none) after
      fun n? => n?.map (TypeExpression.map Info.erase) = type? := by
  cases type? with
  | none =>
    cases h
    refine (finds_accept_none hk).bind ?_
    rintro _ rfl
    exact .pure rfl
  | some t =>
    obtain ⟨words, rfl, ht⟩ := Spells.mark_iff.mp h
    refine (finds_accept rfl).bind ?_
    rintro _ ⟨_, rfl, -⟩
    exact (finds_requiredType htype ht hafter).bind fun n hn => .pure (congrArg some hn)

theorem finds_annotation? {type? : Option (TypeExpression Unit)}
    (htype : type?.all TypeExpression.isGrammatical = true)
    (h : Spells (TypeExpression.annotationSpelling type?) before after) (hafter : AfterType after)
    (hcolon : lead after ≠ some .colon) :
    Finds tokens flags 1 before annotation? after
      fun n? => n?.map (TypeExpression.map Info.erase) = type? :=
  finds_markedType htype h hafter hcolon

end Grammar

end Reparse
