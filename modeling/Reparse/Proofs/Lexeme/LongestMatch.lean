import Reparse.Proofs.Lexeme.LexicalGrammar

/-!
# Longest match

What cutting takes first has a form of the lexical grammar, and no beginning of the text that has a
form is longer. Where one is as long it is read in the same way, so the grammar leaves no choice.
-/

namespace Reparse

namespace Lexeme

variable {c : Char} {cs w u : Text} {k : Kind} {f : Option Code}

theorem number_form (hc : c.isDigit = true) (cs : Text) :
    Form (number c cs).text (cs.drop (number c cs).rest.length) (number c cs).kind
      (number c cs).fault := by
  have hrest := List.prefix_iff_eq_append.mp (number_begins c cs)
  rw [number_eq] at hrest ⊢
  have hlongest : ∀ n k, Numeral n k →
      n <+: c :: literal cs ++ glued cs ++ cs.drop (literal cs ++ glued cs).length →
        n.length ≤ (c :: literal cs).length := by
    intro n k hn hprefix
    rw [List.cons_append, List.cons_append, hrest] at hprefix
    exact (numeral_le hn hprefix).1.length_le
  have hform := Form.number (numeral_literal hc cs) hlongest wordCharacters_mem
  simp only [← List.isEmpty_iff] at hform
  exact hform

theorem word_form (hc : StartsWord c) (cs : Text) :
    Form (word c cs).text (cs.drop (word c cs).rest.length) (word c cs).kind
      (word c cs).fault := by
  unfold word text
  dsimp only
  cases hk : Kind.keyword? (c :: wordCharacters cs) with
  | none =>
    refine .word hc wordCharacters_mem fun k hcategory hspelling => ?_
    rw [keyword?_of_spelling? hcategory hspelling] at hk
    cases hk
  | some k =>
    have hcategory := (List.mem_filter.mp (List.mem_of_find?_eq_some hk)).2
    exact .keyword (of_decide_eq_true hcategory) (spelling?_of_keyword? hk)

theorem string_form (cs : Text) :
    Form (string '"' cs).text (cs.drop (string '"' cs).rest.length) (string '"' cs).kind
      (string '"' cs).fault := by
  rcases stringRest_form cs with ⟨w, hw, hclosed⟩ | ⟨w, d, u, hw, hd, hu, rfl, hopen⟩
  · simp only [string, text, hclosed, if_true]
    exact .string hw
  · simp only [string, text, hopen, List.drop_left]
    exact .openString hw hd hu

theorem symbol_form (hblank : ¬IsBlank c) (hfeed : c ≠ '\n') (hword : ¬ContinuesWord c)
    (hquote : c ≠ '"') (cs : Text) :
    Form (symbol c cs).text (cs.drop (symbol c cs).rest.length) (symbol c cs).kind
      (symbol c cs).fault := by
  unfold symbol text
  split
  next k _ hlong => exact .symbol (isSymbol_of_symbol? hlong) (spelling?_of_symbol? hlong)
  next k _ hshort => exact .symbol (isSymbol_of_symbol? hshort) (spelling?_of_symbol? hshort)
  next _ hshort =>
    refine .strange hblank hfeed hword hquote fun k hk hspelling => ?_
    rw [symbol?_of_spelling? hk hspelling] at hshort
    cases hshort

theorem takeWhile_line (cs : Text) :
    '\n' ∉ cs.takeWhile (· ≠ '\n') ∧ EndsLine (cs.drop (cs.takeWhile (· ≠ '\n')).length) := by
  induction cs with
  | nil => exact ⟨List.not_mem_nil, .inl rfl⟩
  | cons c cs ih =>
    by_cases hc : c = '\n'
    · subst hc
      exact ⟨List.not_mem_nil, .inr rfl⟩
    · rw [List.takeWhile_cons_of_pos (by simpa using hc)]
      exact ⟨fun hmem => (List.mem_cons.mp hmem).elim (fun heq => hc heq.symm) ih.1, ih.2⟩

theorem slash_form (cs : Text) :
    Form (slash '/' cs).text (cs.drop (slash '/' cs).rest.length) (slash '/' cs).kind
      (slash '/' cs).fault := by
  unfold slash
  split
  next cs =>
    obtain ⟨hline, hends⟩ := takeWhile_line cs
    exact .lineComment hline hends
  next cs =>
    rcases commentRest_form cs with ⟨w, u, hw, rfl⟩ | hw
    · simp only [text, commentRest_closed hw, if_true]
      exact .blockComment hw
    · simp only [text, commentRest_open hw, List.drop_length, List.drop_succ_cons,
        List.length_cons]
      exact .openComment hw
  next => exact .symbol (.inl rfl) rfl

theorem blanks_form (hc : IsBlank c) (hbreak : ¬(c = '\r' ∧ cs.head? = some '\n')) :
    Form (c :: blanks cs) (cs.drop (blanks cs).length) .whitespace none := by
  have hlayout : IsLayout c := hc.imp_right (Or.imp_right .inl)
  obtain ⟨w, b, htext, -, hlast⟩ := blanks_end c cs hlayout hbreak
  refine .blanks (List.cons_ne_nil _ _) (List.forall_mem_cons.mpr ⟨hc, blanks_mem cs⟩) ?_
  rw [htext, List.getLast?_concat, Option.some_inj]
  exact hlast

theorem ordinary_of_symbol (h : c ∈ symbolCharacters) :
    ¬IsBlank c ∧ c ≠ '\n' ∧ ¬ContinuesWord c ∧ c ≠ '"' := by
  have hall : (symbolCharacters.all fun d =>
      !isWordCharacter d && !([' ', '\t', '\r', '\n', '"'].contains d)) = true := by decide
  have hboth := List.all_eq_true.mp hall c h
  simp only [Bool.and_eq_true, Bool.not_eq_true', List.contains_eq_mem, decide_eq_false_iff_not,
    List.mem_cons, List.not_mem_nil, or_false, not_or] at hboth
  obtain ⟨hword, hother⟩ := hboth
  obtain ⟨hspace, htab, hreturn, hfeed, hquote⟩ := hother
  refine ⟨?_, hfeed, fun hcontinues => ?_, hquote⟩
  · rintro (rfl | rfl | rfl)
    · exact hspace rfl
    · exact htab rfl
    · exact hreturn rfl
  · rw [(isWordCharacter_iff c).mpr hcontinues] at hword
    cases hword

theorem strange_form (hclass : CharClass.of c = .invalid)
    (hforeign : ¬Text.isForeignLetter c = true) (cs : Text) :
    Form [c] cs .unknown (some .strangeCharacter) := by
  have hspec := charClass_spec c
  rw [hclass] at hspec
  obtain ⟨hblank, hfeed, hdigit, hletter, hscore, hquote⟩ := hspec
  refine .strange hblank hfeed ?_ hquote fun k hk hspelling => ?_
  · rintro ((h | h | h) | h)
    · exact Bool.eq_false_iff.mp hletter h
    · exact hscore h
    · exact hforeign h
    · exact Bool.eq_false_iff.mp hdigit h
  · rcases exists_character_of_symbol hk hspelling with heq | ⟨d, v, heq, -, hd⟩
    · obtain ⟨rfl, -⟩ := List.cons.inj heq
      cases hclass
    · obtain ⟨rfl, -⟩ := List.cons.inj heq
      rw [hclass] at hd
      exact hd.elim (fun h => nomatch h) (fun h => nomatch h)

theorem leading_form (c : Char) (cs : Text) :
    Form (leading c cs).text (cs.drop (leading c cs).rest.length) (leading c cs).kind
      (leading c cs).fault := by
  have hspec := charClass_spec c
  unfold leading
  cases hclass : CharClass.of c with
  | blank =>
    rw [hclass] at hspec
    dsimp only
    split
    next hbreak =>
      obtain ⟨hc, hhead⟩ := Bool.and_eq_true_iff.mp hbreak
      obtain ⟨u, rfl⟩ := List.head?_eq_some_iff.mp (of_decide_eq_true hhead)
      rw [of_decide_eq_true hc]
      exact .lineBreak
    next hbreak => exact blanks_form hspec (by simpa using hbreak)
  | lineFeed =>
    rw [hclass] at hspec
    subst hspec
    exact .lineFeed
  | digit =>
    rw [hclass] at hspec
    exact number_form hspec cs
  | letter =>
    rw [hclass] at hspec
    exact word_form (hspec.imp_right .inl) cs
  | quote =>
    rw [hclass] at hspec
    subst hspec
    exact string_form cs
  | slash =>
    rw [hclass] at hspec
    subst hspec
    exact slash_form cs
  | operator =>
    rw [hclass] at hspec
    obtain ⟨hblank, hfeed, hword, hquote⟩ := ordinary_of_symbol (List.mem_append_left _ hspec)
    exact symbol_form hblank hfeed hword hquote cs
  | punctuation =>
    rw [hclass] at hspec
    obtain ⟨hblank, hfeed, hword, hquote⟩ := ordinary_of_symbol (List.mem_append_right _ hspec)
    exact symbol_form hblank hfeed hword hquote cs
  | invalid =>
    dsimp only
    split
    next hforeign => exact word_form (.inr (.inr hforeign)) cs
    next hforeign => exact strange_form hclass hforeign cs

/-- What a form with the text `w` has to do with the first lexeme `l`: it is no longer, and one that
is as long is the same. -/
structure Within (w : Text) (k : Kind) (f : Option Code) (l : Lexeme) : Prop where
  begins : w <+: l.text
  same : w = l.text → k = l.kind ∧ f = l.fault

theorem within_of_eq {l l' : Lexeme} (h : l' = l) : Within l.text l.kind l.fault l' :=
  h ▸ ⟨List.prefix_rfl, fun _ => ⟨rfl, rfl⟩⟩

theorem within_blanks (hc : IsBlank c) (hw : ∀ d ∈ w, IsBlank d)
    (hbreak : ¬((c :: w).getLast? = some '\r' ∧ u.head? = some '\n')) :
    Within (c :: w) .whitespace none (leading c (w ++ u)) := by
  have hlast : w.getLast? = some '\r' → (c :: w).getLast? = some '\r' := fun h => by
    rw [List.getLast?_cons, h]
    rfl
  have hpair : ¬(c = '\r' ∧ (w ++ u).head? = some '\n') := by
    rintro ⟨rfl, hfeed⟩
    cases w with
    | nil => exact hbreak ⟨rfl, hfeed⟩
    | cons d w =>
      obtain rfl : d = '\n' := Option.some.inj hfeed
      rcases hw _ List.mem_cons_self with h | h | h <;> cases h
  rw [leading_of_isBlank hc hpair]
  have hmore := prefix_blanks hw fun h => hbreak (h.imp_left hlast)
  exact ⟨(List.cons_prefix_cons).mpr ⟨rfl, hmore⟩, fun _ => ⟨rfl, rfl⟩⟩

theorem within_word (hc : StartsWord c) (hw : ∀ d ∈ w, ContinuesWord d)
    (hk : (Kind.keyword? (c :: w)).getD .identifier = k) (u : Text) :
    Within (c :: w) k none (leading c (w ++ u)) := by
  rw [leading_of_startsWord hc]
  refine ⟨(List.cons_prefix_cons).mpr ⟨rfl, prefix_wordCharacters hw (List.prefix_append w u)⟩,
    fun hsame => ⟨?_, rfl⟩⟩
  have hsame : c :: w = c :: wordCharacters (w ++ u) := hsame
  rw [← hk, hsame]
  rfl

theorem within_number {n g : Text} (hn : Numeral n k)
    (hlongest : ∀ n' k', Numeral n' k' → n' <+: n ++ g ++ u → n'.length ≤ n.length)
    (hg : ∀ d ∈ g, ContinuesWord d) (ht : n ++ g ++ u = c :: cs) :
    Within (n ++ g) k (if g = [] then none else some .malformedNumber) (leading c cs) := by
  have hprefix : n <+: c :: cs := ht ▸ List.append_assoc n g u ▸ List.prefix_append n (g ++ u)
  have hc : c.isDigit = true := numeral_head hn hprefix
  obtain ⟨hbegins, hkind⟩ := numeral_le hn hprefix
  have hliteral : c :: literal cs <+: c :: cs :=
    (List.cons_prefix_cons).mpr ⟨rfl, literal_begins cs⟩
  have heq : n = c :: literal cs :=
    hbegins.eq_of_length_le (hlongest _ _ (numeral_literal hc cs) (ht ▸ hliteral))
  have hcs : cs = literal cs ++ (g ++ u) := by
    rw [heq, List.append_assoc] at ht
    exact (List.cons.inj ht).2.symm
  have hglued : glued cs = wordCharacters (g ++ u) := by
    have hdrop : cs.drop (literal cs).length = g ++ u := by
      rw [congrArg (List.drop (literal cs).length) hcs, List.drop_left]
    rw [glued, hdrop]
  rw [leading_of_isDigit hc, number_eq, hglued, hkind heq, heq]
  refine ⟨(List.prefix_append_right_inj (c :: literal cs)).mpr
    (prefix_wordCharacters hg (List.prefix_append g u)), fun hsame => ⟨rfl, ?_⟩⟩
  have hsame : c :: literal cs ++ g = c :: literal cs ++ wordCharacters (g ++ u) := hsame
  rw [← List.append_cancel_left hsame]
  simp only [List.isEmpty_iff]

theorem within_symbol (hk : IsSymbol k) (hw : k.spelling? = some w) (ht : w ++ u = c :: cs) :
    Within w k none (leading c cs) := by
  have hfound := symbol?_of_spelling? hk hw
  rcases exists_character_of_symbol hk hw with rfl | ⟨d, v, rfl, hlength, hclass⟩
  · obtain ⟨rfl, rfl⟩ := List.cons.inj ht
    obtain rfl : Kind.slash = k := Option.some.inj hfound
    change Within ['/'] .slash none (slash '/' u)
    unfold slash
    split
    · exact ⟨⟨_, rfl⟩, fun hsame => nomatch hsame⟩
    · exact ⟨⟨_, rfl⟩, fun hsame => nomatch hsame⟩
    · exact within_of_eq (l := ⟨.slash, '/', [], none⟩) rfl
  · obtain ⟨rfl, rfl⟩ := List.cons.inj ht
    have hleading : leading d (v ++ u) = symbol d (v ++ u) := by
      rcases hclass with hclass | hclass <;> simp only [leading, hclass]
    rw [List.append_eq, hleading, symbol]
    cases v with
    | nil =>
      rw [hfound]
      split
      next hlong =>
        refine ⟨⟨_, rfl⟩, fun hsame => ⟨?_, rfl⟩⟩
        have hsame : [d] = d :: ([] ++ u).take 1 := hsame
        rw [← hsame, hfound] at hlong
        exact Option.some.inj hlong
      next k' _ hshort =>
        obtain rfl := Option.some.inj hshort
        exact within_of_eq (l := ⟨k, d, [], none⟩) rfl
      next _ hshort => cases hshort
    | cons e v =>
      obtain rfl : v = [] := List.length_eq_zero_iff.mp (by simpa using hlength)
      rw [show ([e] ++ u).take 1 = [e] from rfl, hfound]
      exact within_of_eq (l := ⟨k, d, [e], none⟩) rfl

theorem within_strange (hblank : ¬IsBlank c) (hfeed : c ≠ '\n') (hword : ¬ContinuesWord c)
    (hquote : c ≠ '"') (hsymbol : ∀ k : Kind, IsSymbol k → k.spelling? ≠ some [c]) (cs : Text) :
    Within [c] .unknown (some .strangeCharacter) (leading c cs) := by
  have hnone := symbol?_eq_none hsymbol
  have hsymbols : Within [c] .unknown (some .strangeCharacter) (symbol c cs) := by
    rw [symbol, hnone]
    split
    next k' _ hlong =>
      refine ⟨⟨_, rfl⟩, fun hsame => ?_⟩
      have hsame : [c] = c :: cs.take 1 := hsame
      rw [← hsame, hnone] at hlong
      cases hlong
    next hshort => cases hshort
    next => exact within_of_eq (l := ⟨.unknown, c, [], some .strangeCharacter⟩) rfl
  have hspec := charClass_spec c
  unfold leading
  cases hclass : CharClass.of c with
  | operator => exact hsymbols
  | punctuation => exact hsymbols
  | invalid =>
    dsimp only
    rw [if_neg fun hforeign => hword (.inl (.inr (.inr hforeign)))]
    exact within_of_eq (l := ⟨.unknown, c, [], some .strangeCharacter⟩) rfl
  | slash =>
    rw [hclass] at hspec
    subst hspec
    exact absurd rfl (hsymbol .slash (.inl rfl))
  | blank =>
    rw [hclass] at hspec
    exact absurd hspec hblank
  | lineFeed =>
    rw [hclass] at hspec
    exact absurd hspec hfeed
  | digit =>
    rw [hclass] at hspec
    exact absurd (.inr hspec) hword
  | letter =>
    rw [hclass] at hspec
    exact absurd (.inl (hspec.imp_right .inl)) hword
  | quote =>
    rw [hclass] at hspec
    exact absurd hspec hquote

theorem leading_string (hw : StringBody w) (u : Text) :
    leading '"' (w ++ ['"'] ++ u) = ⟨.string, '"', w ++ ['"'], none⟩ := by
  have hrest : stringRest (w ++ ['"'] ++ u) = (w ++ ['"'], true) := by
    rw [List.append_assoc, stringRest_of_body hw, List.singleton_append, stringRest_quote]
  change string '"' (w ++ ['"'] ++ u) = _
  rw [string, hrest]
  rfl

theorem leading_openString {d : Text} (hw : StringBody w) (hd : d ∈ [[], ['\\']])
    (hu : EndsLine u) : leading '"' (w ++ d ++ u) = ⟨.string, '"', w ++ d, some .openString⟩ := by
  have hends : stringRest (d ++ u) = (d, false) := by
    rcases List.mem_cons.mp hd with rfl | hd
    · exact stringRest_of_endsLine hu
    · rw [List.mem_singleton.mp hd]
      exact stringRest_of_backslash hu
  change string '"' (w ++ d ++ u) = _
  rw [string, List.append_assoc, stringRest_of_body hw, hends]
  rfl

theorem leading_lineComment (hw : '\n' ∉ w) (hu : EndsLine u) :
    leading '/' ('/' :: (w ++ u)) = ⟨.comment, '/', '/' :: w, none⟩ := by
  have hline : (w ++ u).takeWhile (· ≠ '\n') = w := by
    refine takeWhile_of_stop (fun d hd => decide_eq_true fun heq => hw (heq ▸ hd)) fun d hd => ?_
    obtain rfl : d = '\n' := hu.elim (fun hnil => by rw [hnil] at hd; cases hd)
      fun hfeed => Option.some.inj (hd.symm.trans hfeed)
    rfl
  change (⟨.comment, '/', '/' :: (w ++ u).takeWhile (· ≠ '\n'), none⟩ : Lexeme) = _
  rw [hline]

theorem leading_blockComment (hw : ¬['*', '/'] <:+: w) (u : Text) :
    leading '/' ('*' :: (w ++ ['*', '/'] ++ u)) =
      ⟨.comment, '/', '*' :: (w ++ ['*', '/']), none⟩ := by
  have hrest := commentRest_closed hw u
  rw [List.append_assoc]
  change slash '/' ('*' :: (w ++ '*' :: '/' :: u)) = _
  rw [slash, hrest]
  rfl

theorem leading_openComment (hw : ¬['*', '/'] <:+: w) :
    leading '/' ('*' :: w) = ⟨.comment, '/', '*' :: w, some .openComment⟩ := by
  change slash '/' ('*' :: w) = _
  rw [slash, commentRest_open hw]
  rfl

theorem Form.within (h : Form w u k f) (ht : w ++ u = c :: cs) : Within w k f (leading c cs) := by
  cases h with
  | lineFeed =>
    obtain ⟨rfl, rfl⟩ := List.cons.inj ht
    exact within_of_eq (l := ⟨.newline, '\n', [], none⟩) rfl
  | lineBreak =>
    obtain ⟨rfl, rfl⟩ := List.cons.inj ht
    exact within_of_eq (l := ⟨.newline, '\r', ['\n'], none⟩) rfl
  | blanks hw hblank hbreak =>
    cases w with
    | nil => exact absurd rfl hw
    | cons d w =>
      obtain ⟨rfl, rfl⟩ := List.cons.inj ht
      obtain ⟨hd, hw⟩ := List.forall_mem_cons.mp hblank
      exact within_blanks hd hw hbreak
  | word hc hw hkeyword =>
    obtain ⟨rfl, rfl⟩ := List.cons.inj ht
    exact within_word hc hw (by rw [keyword?_eq_none hkeyword]; rfl) u
  | keyword hk hw =>
    obtain ⟨d, v, rfl, hd, hv⟩ := exists_word_of_keyword hk hw
    obtain ⟨rfl, rfl⟩ := List.cons.inj ht
    exact within_word hd hv (by rw [keyword?_of_spelling? hk hw]; rfl) u
  | number hn hlongest hg => exact within_number hn hlongest hg ht
  | string hw =>
    obtain ⟨rfl, rfl⟩ := List.cons.inj ht
    exact within_of_eq (leading_string hw u)
  | openString hw hd hu =>
    obtain ⟨rfl, rfl⟩ := List.cons.inj ht
    exact within_of_eq (leading_openString hw hd hu)
  | lineComment hw hu =>
    obtain ⟨rfl, rfl⟩ := List.cons.inj ht
    exact within_of_eq (leading_lineComment hw hu)
  | blockComment hw =>
    obtain ⟨rfl, rfl⟩ := List.cons.inj ht
    exact within_of_eq (leading_blockComment hw u)
  | openComment hw =>
    rw [List.append_nil] at ht
    obtain ⟨rfl, rfl⟩ := List.cons.inj ht
    exact within_of_eq (leading_openComment hw)
  | symbol hk hw => exact within_symbol hk hw ht
  | strange hblank hfeed hword hquote hsymbol =>
    obtain ⟨rfl, rfl⟩ := List.cons.inj ht
    exact within_strange hblank hfeed hword hquote hsymbol u

/-- Cutting takes the longest beginning of a text that has a form, and reads it as that form. -/
theorem longest_iff {l : Lexeme} : Longest (c :: cs) l ↔ l = leading c cs := by
  constructor
  · rintro ⟨⟨u, ht, hform⟩, hlongest⟩
    obtain ⟨hbegins, hsame⟩ := hform.within ht.symm
    have hle := hlongest _ _ _ _ (leading_text c cs).symm (leading_form c cs)
    have htext : l.text = (leading c cs).text := hbegins.eq_of_length_le hle
    obtain ⟨hfirst, hrest⟩ := List.cons.inj htext
    obtain ⟨hkind, hfault⟩ := hsame htext
    cases l
    simp_all
  · rintro rfl
    refine ⟨⟨_, (leading_text c cs).symm, leading_form c cs⟩, fun w u k f ht hform => ?_⟩
    exact (hform.within ht.symm).begins.length_le

end Lexeme

end Reparse
