import Reparse.Proofs.Grammar.Naming
import Reparse.Proofs.Innermost
import Reparse.Proofs.Soundness

/-!
# What a visitor of identifiers sees

A visitor that looks at identifiers alone sees each identifier token that is in the tree once, in
the order of the source, whatever has been edited before. If the text has no errors, that is all of
them.
-/

namespace Reparse

open Reparse.Parser

variable {tokens : Array Token}

namespace Outline

def first? (o : Outline Info) : Option Token := o.extent?.map Extent.first

theorem IsNameOf.first? {o : Outline Info} {t : Token} (h : o.IsNameOf t) : o.first? = some t := by
  obtain ⟨-, comments, rfl⟩ := h
  rfl

theorem Laid.named_of_none {o : Outline Info} (h : o.Laid tokens) (he : o.extent? = none) :
    named [o] = [] := by
  cases hinfo : o.info? with
  | none =>
    refine List.eq_nil_iff_forall_not_mem.mpr fun n hn => ?_
    obtain ⟨hmem, -, hsome⟩ := mem_named.mp hn
    rw [listNodes_cons, (h.standIn hinfo).2] at hmem
    obtain rfl := List.mem_singleton.mp hmem
    rw [hinfo] at hsome
    cases hsome
  | some info =>
    obtain ⟨-, -, e, -, -, hlies, -⟩ := h.lies info hinfo
    rw [extent?, hinfo, Option.bind_some, hlies] at he
    cases he

mutual

theorem first_sublist_node {k l : Nat} {e : Extent}
    (hnodup : (tokens.toList.map Token.id).Nodup) : (o : Outline Info) → o.extent? = some e →
    e.Spans tokens k l → o.Laid tokens → (∀ n ∈ listNodes o.children, n.Laid tokens) →
    Genuine [o] → ((named [o]).filterMap first?).Sublist (stretch tokens k (l + 1))
  | node form text? info? children, he, hspans, hself, hbelow, hgenuine => by
    rcases hself.cases with ⟨hnone, -⟩ | ⟨e', k', l', he', hspans', hrow⟩
    · exact absurd (hnone.symm.trans he) (Option.some_ne_none e).symm
    · obtain rfl : e = e' := Option.some.inj (he.symm.trans he')
      obtain ⟨rfl, rfl⟩ := hspans.unique hnodup hspans'
      by_cases hform : form = .identifier
      · -- An identifier has no children, so it is all there is to see.
        subst hform
        have hinfo : info?.isSome = true := by
          cases info? with
          | none => cases he
          | some info => rfl
        obtain ⟨t, -, comments, heq⟩ := hgenuine (node .identifier text? info? children)
          (mem_named.mpr ⟨List.mem_cons_self, rfl, hinfo⟩)
        cases heq
        cases he
        exact List.singleton_sublist.mpr
          (mem_stretch (Nat.le_refl k) (Nat.lt_succ_of_le hspans.le) hspans.first)
      · rw [Genuine, named_node hform] at hgenuine
        rw [named_node hform]
        exact first_sublist_list hnodup children hrow hbelow hgenuine

theorem first_sublist_list {i j : Nat} (hnodup : (tokens.toList.map Token.id).Nodup) :
    (os : List (Outline Info)) → InRow tokens i j os → (∀ n ∈ listNodes os, n.Laid tokens) →
    Genuine os → ((named os).filterMap first?).Sublist (stretch tokens i j)
  | [], _, _, _ => List.nil_sublist _
  | o :: os, hrow, hlaid, hgenuine => by
    obtain ⟨hself, hbelow, hrest⟩ := forall_listNodes_cons.mp hlaid
    rw [Genuine, named_cons] at hgenuine
    obtain ⟨hfirst, hlater⟩ := List.forall_mem_append.mp hgenuine
    rw [named_cons, List.filterMap_append]
    cases he : o.extent? with
    | none =>
      rw [hself.named_of_none he, List.filterMap_nil, List.nil_append]
      exact first_sublist_list hnodup os ((inRow_cons_of_none he os).mp hrow) hrest hlater
    | some e =>
      obtain ⟨k, l, hik, hspans, hbehind⟩ := (inRow_cons_of_some he os).mp hrow
      have hnode := first_sublist_node hnodup o he hspans hself hbelow hfirst
      have hrow := first_sublist_list hnodup os hbehind hrest hlater
      have hkl : k ≤ l + 1 := Nat.le_succ_of_le hspans.le
      rw [← stretch_append (Nat.le_trans hik hkl) hbehind.le, ← stretch_append hik hkl]
      exact (hnode.trans (List.sublist_append_right ..)).append hrow

end

structure AreNamesOf (os : List (Outline Info)) (ts : List Token) : Prop where
  kinds : ∀ t ∈ ts, t.kind = .identifier
  seen : os.map (fun o => (o.text?, o.extent?)) = ts.map fun t => (some t.text, some (.single t))

theorem areNamesOf_first {os : List (Outline Info)} (h : ∀ o ∈ os, ∃ t, o.IsNameOf t) :
    AreNamesOf os (os.filterMap first?) := by
  induction os with
  | nil => exact ⟨fun _ ht => absurd ht List.not_mem_nil, rfl⟩
  | cons o os ih =>
    obtain ⟨⟨t, hname⟩, hrest⟩ := List.forall_mem_cons.mp h
    obtain ⟨hkinds, hseen⟩ := ih hrest
    rw [List.filterMap_cons_some hname.first?]
    obtain ⟨hkind, comments, rfl⟩ := hname
    exact ⟨List.forall_mem_cons.mpr ⟨hkind, hkinds⟩, congrArg (_ :: ·) hseen⟩

theorem exists_tokens_of_named (hnodup : (tokens.toList.map Token.id).Nodup) {i j : Nat}
    {os : List (Outline Info)} (hrow : InRow tokens i j os)
    (hlaid : ∀ n ∈ listNodes os, n.Laid tokens) (hgenuine : Genuine os) :
    ∃ ts, ts.Sublist tokens.toList ∧ AreNamesOf (named os) ts :=
  ⟨_, (first_sublist_list hnodup os hrow hlaid hgenuine).trans (stretch_sublist ..),
    areNamesOf_first hgenuine⟩

end Outline

namespace Outline

theorem Laid.exists_name {o : Outline Info} (h : o.Laid tokens) (hform : o.form = .identifier) :
    ∃ name, o.text? = some name := by
  cases hinfo : o.info? with
  | none =>
    have hstandIn := (h.standIn hinfo).1
    simp only [isStandIn, hform, reduceCtorEq, decide_false, decide_true, Bool.false_or,
      Bool.true_and, Bool.false_and, Bool.or_false, decide_eq_true_eq] at hstandIn
    exact ⟨[], hstandIn⟩
  | some info =>
    obtain ⟨-, -, e, -, -, -, -, -, htext⟩ := h.lies info hinfo
    exact ⟨_, htext hform⟩

theorem IsWhole.named_eq {α : Type} {o : Outline α} (h : o.IsWhole) :
    named [o] = identifiers [o] := by
  refine List.filter_eq_self.mpr fun n hn => ?_
  have hrows := filterMap_rows (fun _ _ info? => some info?) 0 o
  have hmem : n.info? ∈ o.nodes.filterMap fun n => some n.info? :=
    List.mem_filterMap.mpr ⟨n, nodes_eq_listNodes o ▸ (List.mem_filter.mp hn).1, rfl⟩
  rw [← hrows] at hmem
  obtain ⟨row, hrow, heq⟩ := List.mem_filterMap.mp hmem
  rw [← Option.some.inj heq]
  exact h row hrow

end Outline

theorem Session.Valid.exists_name {s : Session} (h : s.Valid) {o : Outline Info}
    (ho : o ∈ Outline.listNodes [(parse s.stream s.memo).1.program.outline])
    (hform : o.form = .identifier) : ∃ name, o.text? = some name := by
  obtain ⟨f, -, hassembled⟩ := h.assembled
  rw [Outline.listNodes_cons, Outline.listNodes_nil, List.append_nil] at ho
  rcases List.mem_cons.mp ho with rfl | ho
  · cases hform
  · exact (hassembled.laid o ho).exists_name hform

theorem Token.filterMap_words (ts : List Token) :
    (words ts).filterMap Word.name? =
      (ts.filter fun t => t.kind = .identifier).map Token.text := by
  induction ts with
  | nil => rfl
  | cons t ts ih =>
    rw [words] at ih ⊢
    by_cases hkind : t.kind = .identifier
    · have hreal : t.isTrivia = false := by rw [isTrivia, hkind]; rfl
      have hname : t.word.name? = some t.text := if_pos hkind
      simp [hreal, hname, hkind, ih]
    · have hname : t.word.name? = none := if_neg hkind
      cases hreal : t.isTrivia <;> simp [hreal, hname, hkind, ih]

theorem TokenStream.Covers.proper {s : TokenStream} {ls : List Lexeme} (h : s.Covers true ls) :
    ∀ t ∈ s.tokens, t.word.Proper := by
  intro t ht
  have hmem : (t.kind, t.text) ∈ s.tokens.toList.map fun t => (t.kind, t.text) :=
    List.mem_map_of_mem (Array.mem_toList_iff.mpr ht)
  rw [h.words] at hmem
  obtain ⟨l, hl, heq⟩ := List.mem_map.mp hmem
  obtain ⟨hkind, htext⟩ := Prod.mk.inj heq
  obtain ⟨c, cs, rfl⟩ := h.cut l hl
  have hproper := Lexeme.leading_proper c cs
  rwa [Lexeme.Proper, hkind, htext] at hproper

theorem TokenStream.Covers.pairwise_before {s : TokenStream} {ls : List Lexeme}
    (h : s.Covers true ls) :
    s.tokens.toList.Pairwise fun t u => (s.location t).Before (s.location u) := by
  refine List.pairwise_iff_getElem.mpr fun i j hi hj hij => ?_
  rw [h.location_eq (i := i) (Array.getElem?_toList.symm.trans (List.getElem?_eq_getElem hi)),
    h.location_eq (i := j) (Array.getElem?_toList.symm.trans (List.getElem?_eq_getElem hj))]
  exact Lexeme.region_before hij

theorem TokenStream.Covers.filled {s : TokenStream} {ls : List Lexeme} (h : s.Covers true ls)
    {t : Token} (ht : t ∈ s.tokens) : (s.location t).Filled := by
  obtain ⟨i, hi⟩ := Array.mem_iff_getElem?.mp ht
  have hlt : i < ls.length := by
    rw [← h.length, Array.length_toList]
    exact (Array.getElem?_eq_some_iff.mp hi).1
  rw [h.location_eq hi]
  exact Lexeme.region_filled (Nat.lt_succ_self i) hlt

namespace Session

variable {s : Session}

theorem Valid.spells (h : s.Valid) (hproper : ∀ t ∈ s.stream.readAll.tokens, t.word.Proper)
    (hclean : ∀ r ∈ (parse s.stream s.memo).1.reports, r.code.severity ≠ .error) :
    (parse s.stream s.memo).1.program.isGrammatical = true ∧
      Spells (parse s.stream s.memo).1.program.spelling
        (Token.words s.stream.readAll.tokens.toList) [] := by
  have hread := h.follows (TokenStream.follows_readAll h.numbered)
  obtain ⟨hprogram, hreports⟩ := parse_eq_bare h.numbered (trusted h) hread.memo
  rw [hprogram]
  refine spells_bareProgram hproper fun r hr => hclean r ?_
  rw [hreports]
  exact Array.mem_toList_iff.mpr hr

theorem Valid.exists_tokens_of_named (h : s.Valid) :
    ∃ ts, ts.Sublist s.stream.readAll.tokens.toList ∧
      Outline.AreNamesOf (Outline.named [(parse s.stream s.memo).1.program.outline]) ts := by
  obtain ⟨f, -, hassembled⟩ := h.assembled
  obtain ⟨-, -, hgenuine⟩ := h.parsed (Grammar.names_program {} ⟨0, [], []⟩)
  rw [Program.outline, Outline.Genuine, Outline.named_node (by decide)] at hgenuine
  rw [Program.outline, Outline.named_node (by decide)]
  by_cases hreals : reals s.stream.readAll.tokens 0 = []
  · rw [(hassembled.empty hreals).2]
    exact ⟨[], List.nil_sublist _, fun _ ht => absurd ht List.not_mem_nil, rfl⟩
  · obtain ⟨e, i, j, -, -, hrow⟩ := hassembled.lies hreals
    exact Outline.exists_tokens_of_named
      (TokenStream.follows_readAll h.numbered).numbered.nodup hrow hassembled.laid hgenuine

/-- A visitor that looks at identifiers alone sees some names. Those that are not missing are tokens
of the stream, each of them an identifier and seen once, in the order of the stream. So they lie one
behind the other, and without errors they are all there are, as far as an edited source has
coordinates. -/
theorem identifiers_parse (source : Text) (ops : List SessionOp) :
    let s := (ofSource source).run ops
    let result := parse s.stream s.memo
    let program := result.1.program
    let stream := result.2.1
    let seen := Outline.identifiers [program.outline]
    program.outline.identifierNames = seen.map (fun o => o.text?.getD []) ∧
    (program.outline.visits []).filter (fun v => v.1 = .identifier) =
      seen.map (fun o => (.identifier, o.info?)) ∧
    ∃ ts : List Token, ts.Sublist stream.tokens.toList ∧ ts.Nodup ∧
      (∀ t ∈ ts, t.kind = .identifier) ∧
      (seen.filter fun o => o.info?.isSome).map (fun o => (o.text?, o.extent?)) =
        ts.map (fun t => (some t.text, some (.single t))) ∧
      ((∀ done, done <+: ops → done ≠ [] →
          Text.Addressable ((ofSource source).run done).stream.source) →
        (ts.map stream.location).Pairwise Location.Before ∧
        (∀ t ∈ ts, (stream.location t).Filled) ∧
        ((∀ r ∈ result.1.reports, r.code.severity ≠ .error) →
          program.outline.identifierNames =
            (stream.tokens.toList.filter fun t => t.kind = .identifier).map Token.text)) := by
  intro s result program stream seen
  have hvalid : s.Valid := (valid_ofSource source).run ops
  have hnumbered := (TokenStream.follows_readAll hvalid.numbered).numbered
  obtain ⟨ts, hsublist, hnames⟩ := hvalid.exists_tokens_of_named
  refine ⟨?_, program.outline.filter_visits, ts, hsublist, hnumbered.nodup_tokens.sublist hsublist,
    hnames.kinds, hnames.seen, fun hfits => ?_⟩
  · rw [Outline.identifierNames_eq]
    refine List.filterMap_eq_map_iff_forall_eq_some.mpr fun o ho => ?_
    obtain ⟨hmem, hform⟩ := List.mem_filter.mp ho
    obtain ⟨name, hname⟩ := hvalid.exists_name hmem (of_decide_eq_true hform)
    rw [hname]
    rfl
  · obtain ⟨ls, hcovers⟩ := covers_run_of_edited source ops hfits
    obtain ⟨ms, hms, -⟩ := hcovers.readAll
    refine ⟨List.pairwise_map.mpr (hms.pairwise_before.sublist hsublist), fun t ht =>
      hms.filled (Array.mem_toList_iff.mp (hsublist.subset ht)), fun hclean => ?_⟩
    obtain ⟨hgrammatical, hspells⟩ := hvalid.spells hms.proper hclean
    have hwords := hspells.names
    rw [Program.names_spelling, Token.filterMap_words, List.filterMap_nil, List.append_nil,
      Outline.names, (Program.isWhole_outline hgrammatical).named_eq] at hwords
    exact (Outline.identifierNames_eq _).trans hwords.symm

theorem identifiers_parse_renamed :
    let s := (ofSource "let a = b.c(\x7bd: 1\x7d); fn f() \x7b\x7d".toList).run
      [.parse, .edit 4 1 ['x', 'y']]
    let result := parse s.stream s.memo
    let program := result.1.program
    let stream := result.2.1
    let seen := Outline.identifiers [program.outline]
    program.outline.identifierNames = [['x', 'y'], ['b'], ['c'], ['d'], ['f']] ∧
    (∃ ts : List Token, ts.Sublist stream.tokens.toList ∧ ts.Nodup ∧
      (∀ t ∈ ts, t.kind = .identifier) ∧
      (seen.filter fun o => o.info?.isSome).map (fun o => (o.text?, o.extent?)) =
        ts.map (fun t => (some t.text, some (.single t))) ∧
      (ts.map stream.location).Pairwise Location.Before ∧
      (∀ t ∈ ts, (stream.location t).Filled)) ∧
    program.outline.identifierNames =
      (stream.tokens.toList.filter fun t => t.kind = .identifier).map Token.text := by
  obtain ⟨-, -, ts, hsublist, hnodup, hkinds, hseen, hplaces⟩ := identifiers_parse
    "let a = b.c(\x7bd: 1\x7d); fn f() \x7b\x7d".toList [.parse, .edit 4 1 ['x', 'y']]
  have hshort : ∀ n < 3, Text.size ((ofSource
      "let a = b.c(\x7bd: 1\x7d); fn f() \x7b\x7d".toList).run
      ([SessionOp.parse, .edit 4 1 ['x', 'y']].take n)).stream.source < maxCoordinate := by
    decide +kernel
  obtain ⟨hbefore, hfilled, hclean⟩ := hplaces fun done hdone _ => by
    have hlt := hshort done.length (Nat.lt_succ_of_le hdone.length_le)
    rw [← List.prefix_iff_eq_take.mp hdone] at hlt
    exact (Text.addressable_iff _).mpr ⟨Nat.le_of_lt hlt, Text.ne_feeds_of_size_lt hlt⟩
  have hsevere :
      let s := (ofSource "let a = b.c(\x7bd: 1\x7d); fn f() \x7b\x7d".toList).run
        [.parse, .edit 4 1 ['x', 'y']]
      ∀ r ∈ (parse s.stream s.memo).1.reports, r.code.severity ≠ .error := by
    decide +kernel
  exact ⟨by decide +kernel, ⟨ts, hsublist, hnodup, hkinds, hseen, hbefore, hfilled⟩,
    hclean hsevere⟩

end Session

end Reparse
