import Reparse.Proofs.Lexeme.Cut

/-!
# Layout bounds lookahead

A lexeme may look at characters behind its end, but never at what comes behind a layout character
there. So lexemes that end before a layout token come out the same whatever follows that token.
-/

namespace Reparse

def IsLayout (c : Char) : Prop := c = ' ' ∨ c = '\t' ∨ c = '\r' ∨ c = '\n'

namespace IsLayout

variable {b : Char}

theorem not_digit (h : IsLayout b) : b.isDigit = false := by
  rcases h with rfl | rfl | rfl | rfl <;> decide

theorem not_word (h : IsLayout b) : Lexeme.isWordCharacter b = false := by
  rcases h with rfl | rfl | rfl | rfl <;> decide

theorem ne (h : IsLayout b) {c : Char} (hc : c ∉ [' ', '\t', '\r', '\n']) : b ≠ c := by
  rintro rfl
  refine hc ?_
  rcases h with rfl | rfl | rfl | rfl <;> decide

end IsLayout

namespace Lexeme

variable {b : Char} (t : Text)

theorem takeWhile_stop {p : Char → Bool} (h : p b = false) (v : Text) :
    (v ++ b :: t).takeWhile p = v.takeWhile p := by
  induction v with
  | nil => simp [h]
  | cons c cs ih => rw [List.cons_append, List.takeWhile_cons, List.takeWhile_cons, ih]

theorem digits_layout (hb : IsLayout b) (v : Text) : digits (v ++ b :: t) = digits v :=
  takeWhile_stop t hb.not_digit v

theorem wordCharacters_layout (hb : IsLayout b) (v : Text) :
    wordCharacters (v ++ b :: t) = wordCharacters v :=
  takeWhile_stop t hb.not_word v

theorem fraction_layout (hb : IsLayout b) (v : Text) : fraction (v ++ b :: t) = fraction v := by
  have hpoint : b ≠ '.' := hb.ne (by decide)
  cases v with
  | nil =>
    rw [List.nil_append, fraction_of_ne hpoint]
    rfl
  | cons c cs =>
    by_cases hc : c = '.'
    · subst hc
      rw [List.cons_append, fraction, fraction, digits_layout t hb]
    · rw [List.cons_append, fraction_of_ne hc, fraction_of_ne hc]

theorem sign_layout (hb : IsLayout b) (v : Text) : sign (v ++ b :: t) = sign v := by
  have hplus : b ≠ '+' := hb.ne (by decide)
  have hminus : b ≠ '-' := hb.ne (by decide)
  cases v with
  | nil => simp [sign, hplus, hminus]
  | cons c cs => rfl

theorem exponent_layout (hb : IsLayout b) (v : Text) : exponent (v ++ b :: t) = exponent v := by
  have hlower : b ≠ 'e' := hb.ne (by decide)
  have hupper : b ≠ 'E' := hb.ne (by decide)
  cases v with
  | nil => simp [exponent, hlower, hupper]
  | cons c cs =>
    have hdrop : (cs ++ b :: t).drop (sign cs).length = cs.drop (sign cs).length ++ b :: t :=
      List.drop_append_of_le_length (sign_begins cs).length_le
    rw [List.cons_append, exponent, exponent, sign_layout t hb, hdrop, digits_layout t hb]

theorem number_layout (hb : IsLayout b) (c : Char) (v : Text) :
    number c (v ++ b :: t) = number c v := by
  have hmantissa : digits v ++ fraction (v.drop (digits v).length) <+: v :=
    prefix_append_of_drop (digits_begins v) (fraction_begins _)
  have hliteral := prefix_append_of_drop hmantissa (exponent_begins _)
  have hdrop : ∀ {u : Text}, u <+: v → (v ++ b :: t).drop u.length = v.drop u.length ++ b :: t :=
    fun h => List.drop_append_of_le_length h.length_le
  simp only [number, digits_layout t hb, hdrop (digits_begins v), fraction_layout t hb,
    hdrop hmantissa, exponent_layout t hb, hdrop hliteral, wordCharacters_layout t hb]

theorem word_layout (hb : IsLayout b) (c : Char) (v : Text) : word c (v ++ b :: t) = word c v := by
  simp only [word, wordCharacters_layout t hb]

theorem symbol?_layout (hb : IsLayout b) (c : Char) : symbol? [c, b] = none := by
  refine List.find?_eq_none.mpr fun k hk => ?_
  have hspelling : symbols.all (fun k => [' ', '\t', '\r', '\n'].all fun d =>
      (k.spelling?.bind fun s => s[1]?) != some d) = true := by
    decide
  have hmem : b ∈ [' ', '\t', '\r', '\n'] := by
    rcases hb with rfl | rfl | rfl | rfl <;> decide
  have hother := List.all_eq_true.mp (List.all_eq_true.mp hspelling k hk) b hmem
  intro hk'
  rw [of_decide_eq_true hk'] at hother
  exact bne_iff_ne.mp hother rfl

theorem symbol_layout (hb : IsLayout b) (c : Char) (v : Text) :
    symbol c (v ++ b :: t) = symbol c v := by
  cases v with
  | cons d ds => rfl
  | nil =>
    simp only [symbol, List.nil_append, List.take_succ_cons, List.take_zero, List.take_nil,
      symbol?_layout hb]
    rcases symbol? [c] with _ | kind <;> rfl

variable {t} {v : Text}

theorem blanks_stable (hb : IsLayout b) (hbreak : ¬(b = '\r' ∧ t.head? = some '\n'))
    (hends : (blanks (v ++ b :: t)).length ≤ v.length) (t' : Text) :
    blanks (v ++ b :: t') = blanks (v ++ b :: t) := by
  induction v with
  | nil =>
    have hnil : blanks (b :: t) = [] := List.length_eq_zero_iff.mp (Nat.le_zero.mp hends)
    have hfeed : b = '\n' := by
      rcases hb with rfl | rfl | rfl | rfl
      · simp [blanks] at hnil
      · simp [blanks] at hnil
      · simp [blanks, not_and.mp hbreak rfl] at hnil
      · rfl
    subst hfeed
    rfl
  | cons c cs ih =>
    have hhead : (cs ++ b :: t').head? = (cs ++ b :: t).head? := by cases cs <;> rfl
    simp only [List.cons_append, blanks, hhead] at hends ⊢
    split at hends
    next hgoes =>
      rw [if_pos hgoes, if_pos hgoes, ih (Nat.le_of_succ_le_succ hends)]
    next hstops => rw [if_neg hstops, if_neg hstops]

theorem stringRest_stable (hb : IsLayout b)
    (hends : (stringRest (v ++ b :: t)).1.length ≤ v.length) (t' : Text) :
    stringRest (v ++ b :: t') = stringRest (v ++ b :: t) := by
  have hquote : b ≠ '"' := hb.ne (by decide)
  have hescape : b ≠ '\\' := hb.ne (by decide)
  induction v using stringRest.induct with
  | case1 =>
    by_cases hfeed : b = '\n'
    · subst hfeed
      rw [List.nil_append, List.nil_append, stringRest_feed, stringRest_feed]
    · rw [List.nil_append, stringRest_cons hquote hfeed hescape] at hends
      exact absurd hends (Nat.not_succ_le_zero _)
  | case2 cs => rw [List.cons_append, List.cons_append, stringRest_quote, stringRest_quote]
  | case3 cs => rw [List.cons_append, List.cons_append, stringRest_feed, stringRest_feed]
  | case4 =>
    by_cases hfeed : b = '\n'
    · subst hfeed
      exact (stringRest_escape_feed t').trans (stringRest_escape_feed t).symm
    · rw [List.cons_append, List.nil_append, stringRest_escape hfeed] at hends
      exact absurd (Nat.le_of_succ_le_succ hends) (Nat.not_succ_le_zero _)
  | case5 ds => exact (stringRest_escape_feed _).trans (stringRest_escape_feed _).symm
  | case6 d ds hd rest closed hrest _ _ ih =>
    rw [List.cons_append, List.cons_append, stringRest_escape hd] at hends ⊢
    have htail := ih (Nat.le_of_succ_le_succ (Nat.le_of_succ_le_succ hends))
    rw [List.cons_append, List.cons_append, stringRest_escape hd, htail]
  | case7 c cs hc hfeed hc' rest closed hrest ih =>
    rw [List.cons_append, stringRest_cons hc hfeed hc'] at hends ⊢
    rw [List.cons_append, stringRest_cons hc hfeed hc', ih (Nat.le_of_succ_le_succ hends)]

theorem commentRest_stable (hb : IsLayout b)
    (hends : (commentRest (v ++ b :: t)).1.length ≤ v.length) (t' : Text) :
    commentRest (v ++ b :: t') = commentRest (v ++ b :: t) := by
  have hstar : b ≠ '*' := hb.ne (by decide)
  induction v with
  | nil =>
    rw [List.nil_append, commentRest, if_neg (by simp [hstar])] at hends
    exact absurd hends (Nat.not_succ_le_zero _)
  | cons c cs ih =>
    have hhead : (cs ++ b :: t').head? = (cs ++ b :: t).head? := by cases cs <;> rfl
    simp only [List.cons_append, commentRest, hhead] at hends ⊢
    split at hends
    next hcloses => rw [if_pos hcloses, if_pos hcloses]
    next hgoes =>
      rw [if_neg hgoes, if_neg hgoes, ih (Nat.le_of_succ_le_succ hends)]

theorem lineComment_stable (hends : ((v ++ b :: t).takeWhile (· ≠ '\n')).length ≤ v.length)
    (t' : Text) : (v ++ b :: t').takeWhile (· ≠ '\n') = (v ++ b :: t).takeWhile (· ≠ '\n') := by
  induction v with
  | nil =>
    have hfeed : b = '\n' := Decidable.byContradiction fun hb => by simp [hb] at hends
    subst hfeed
    rfl
  | cons c cs ih =>
    simp only [List.cons_append, List.takeWhile_cons] at hends ⊢
    split at hends
    next hgoes => rw [if_pos hgoes, if_pos hgoes, ih (Nat.le_of_succ_le_succ hends)]
    next hstops => rw [if_neg hstops, if_neg hstops]

theorem slash_stable (hb : IsLayout b) {c : Char}
    (hends : (slash c (v ++ b :: t)).rest.length ≤ v.length) (t' : Text) :
    slash c (v ++ b :: t') = slash c (v ++ b :: t) := by
  have hstar : b ≠ '*' := hb.ne (by decide)
  have hslash : b ≠ '/' := hb.ne (by decide)
  cases v with
  | nil => rw [List.nil_append, List.nil_append, slash_of_ne hslash hstar, slash_of_ne hslash hstar]
  | cons d ds =>
    by_cases hd : d = '/'
    · subst hd
      have hline := lineComment_stable (v := '/' :: ds) (t := t) hends t'
      rw [List.cons_append, List.cons_append] at hline ⊢
      rw [slash, slash, hline]
    · by_cases hd' : d = '*'
      · subst hd'
        rw [List.cons_append, slash] at hends
        rw [List.cons_append, List.cons_append, slash, slash,
          commentRest_stable hb (Nat.le_of_succ_le_succ hends) t']
      · rw [List.cons_append, List.cons_append, slash_of_ne hd hd', slash_of_ne hd hd']

theorem leading_stable (hb : IsLayout b) (hbreak : ¬(b = '\r' ∧ t.head? = some '\n')) {c : Char}
    (hends : (leading c (v ++ b :: t)).rest.length ≤ v.length) (t' : Text) :
    leading c (v ++ b :: t') = leading c (v ++ b :: t) := by
  have hhead : (v ++ b :: t').head? = (v ++ b :: t).head? := by cases v <;> rfl
  unfold leading at hends ⊢
  cases hclass : CharClass.of c with
  | blank =>
    simp only [hclass, hhead] at hends ⊢
    split at hends
    next hpair => rw [if_pos hpair, if_pos hpair]
    next hpair => rw [if_neg hpair, if_neg hpair, blanks_stable hb hbreak hends t']
  | lineFeed => rfl
  | digit => exact (number_layout t' hb c v).trans (number_layout t hb c v).symm
  | letter => exact (word_layout t' hb c v).trans (word_layout t hb c v).symm
  | quote =>
    simp only [hclass, string] at hends ⊢
    rw [stringRest_stable hb hends t']
  | slash =>
    simp only [hclass] at hends ⊢
    exact slash_stable hb hends t'
  | operator => exact (symbol_layout t' hb c v).trans (symbol_layout t hb c v).symm
  | punctuation => exact (symbol_layout t' hb c v).trans (symbol_layout t hb c v).symm
  | invalid => simp only [word_layout _ hb]

theorem Cuts.stable {ls : List Lexeme} {w s : Text} (hb : IsLayout b)
    (hbreak : ¬(b = '\r' ∧ t.head? = some '\n')) (h : Cuts s ls (w ++ b :: t)) (t' : Text) :
    Cuts (Lexeme.joined ls ++ w ++ b :: t') ls (w ++ b :: t') := by
  generalize hrest : w ++ b :: t = rest at h
  induction h with
  | nil s => exact .nil _
  | @cons c cs rest ls tail ih =>
    subst hrest
    have htext := leading_text c cs
    have hcs : cs = (leading c cs).rest ++ Lexeme.joined ls ++ w ++ b :: t := by
      have htail := tail.joined
      rw [htail, Lexeme.text, leading_first, List.cons_append] at htext
      simpa [List.append_assoc] using (List.cons.inj htext).2.symm
    -- The first lexeme ends before `b`, so that it is cut alike whatever stands behind `b`.
    have hends : (leading c ((leading c cs).rest ++ Lexeme.joined ls ++ w ++ b :: t)).rest.length ≤
        ((leading c cs).rest ++ Lexeme.joined ls ++ w).length := by
      rw [← hcs]
      simp only [List.length_append]
      omega
    have hsame := leading_stable hb hbreak hends t'
    rw [← hcs] at hsame
    have hcut : Cuts (((leading c cs).rest ++ Lexeme.joined ls ++ w ++ b :: t').drop
        (leading c cs).rest.length) ls (w ++ b :: t') := by
      rw [List.append_assoc, List.append_assoc, List.drop_left, ← List.append_assoc]
      exact ih rfl
    have hjoined : Lexeme.joined (leading c cs :: ls) ++ w ++ b :: t' =
        c :: ((leading c cs).rest ++ Lexeme.joined ls ++ w ++ b :: t') := by
      rw [joined_cons, Lexeme.text, leading_first]
      rfl
    rw [hjoined]
    have hresult : Cuts (c :: ((leading c cs).rest ++ Lexeme.joined ls ++ w ++ b :: t'))
        (leading c ((leading c cs).rest ++ Lexeme.joined ls ++ w ++ b :: t') :: ls)
          (w ++ b :: t') := by
      refine .cons ?_
      rw [hsame]
      exact hcut
    rwa [hsame] at hresult

theorem blanks_end (c : Char) (cs : Text) (hc : IsLayout c)
    (hbreak : ¬(c = '\r' ∧ cs.head? = some '\n')) :
    ∃ w b, c :: blanks cs = w ++ [b] ∧ IsLayout b ∧
      ¬(b = '\r' ∧ (cs.drop (blanks cs).length).head? = some '\n') := by
  induction cs generalizing c with
  | nil => exact ⟨[], c, rfl, hc, hbreak⟩
  | cons d ds ih =>
    by_cases hgoes : (d = ' ' || d = '\t' || d = '\r' && ds.head? ≠ some '\n') = true
    · have hblanks : blanks (d :: ds) = d :: blanks ds := by rw [blanks, if_pos hgoes]
      have hd : IsLayout d ∧ ¬(d = '\r' ∧ ds.head? = some '\n') := by
        simp only [Bool.or_eq_true, Bool.and_eq_true, decide_eq_true_eq] at hgoes
        rcases hgoes with (rfl | rfl) | ⟨rfl, hhead⟩
        · exact ⟨.inl rfl, fun h => absurd h.1 (by decide)⟩
        · exact ⟨.inr (.inl rfl), fun h => absurd h.1 (by decide)⟩
        · exact ⟨.inr (.inr (.inl rfl)), fun h => hhead h.2⟩
      obtain ⟨w, b, htext, hb, hb'⟩ := ih d hd.1 hd.2
      refine ⟨c :: w, b, ?_, hb, ?_⟩
      · rw [hblanks, htext, List.cons_append]
      · rw [hblanks]
        exact hb'
    · have hblanks : blanks (d :: ds) = [] := by rw [blanks, if_neg hgoes]
      refine ⟨[], c, ?_, hc, ?_⟩
      · rw [hblanks, List.nil_append]
      · rw [hblanks]
        exact hbreak

theorem word_not_layout (c : Char) (cs : Text) : (word c cs).kind.isLayout = false := by
  have hkeywords : ∀ k ∈ Kind.keywords, k.isLayout = false := by decide
  unfold word
  dsimp only
  cases hk : Kind.keyword? (c :: wordCharacters cs) with
  | none => rfl
  | some k => exact hkeywords k (List.mem_of_find?_eq_some hk)

theorem number_not_layout (c : Char) (cs : Text) : (number c cs).kind.isLayout = false := by
  unfold number
  dsimp only
  split <;> rfl

theorem symbol_not_layout (c : Char) (cs : Text) : (symbol c cs).kind.isLayout = false := by
  have hsymbols : ∀ k ∈ symbols, k.isLayout = false := by decide
  unfold symbol
  split
  next hk => exact hsymbols _ (List.mem_of_find?_eq_some hk)
  next hk => exact hsymbols _ (List.mem_of_find?_eq_some hk)
  · rfl

theorem slash_not_layout (c : Char) (cs : Text) : (slash c cs).kind.isLayout = false := by
  unfold slash
  split
  · rfl
  · rfl
  · exact symbol_not_layout c []

theorem leading_layout {c : Char} {cs : Text} (h : (leading c cs).kind.isLayout = true) :
    ∃ w b, (leading c cs).text = w ++ [b] ∧ IsLayout b ∧
      ¬(b = '\r' ∧ (cs.drop (leading c cs).rest.length).head? = some '\n') := by
  have hspec := charClass_spec c
  unfold leading at h ⊢
  cases hclass : CharClass.of c with
  | blank =>
    rw [hclass] at hspec
    by_cases hpair : (c = '\r' && cs.head? = some '\n') = true
    · simp only [hpair, if_true]
      exact ⟨[c], '\n', rfl, .inr (.inr (.inr rfl)), fun h => absurd h.1 (by decide)⟩
    · have hc : IsLayout c := hspec.imp_right (Or.imp_right .inl)
      simp only [hpair]
      refine blanks_end c cs hc fun hbreak => hpair ?_
      simp [hbreak.1, hbreak.2]
  | lineFeed =>
    rw [hclass] at hspec
    subst hspec
    exact ⟨[], '\n', rfl, .inr (.inr (.inr rfl)), fun h => absurd h.1 (by decide)⟩
  | digit =>
    simp only [hclass, number_not_layout] at h
    cases h
  | letter =>
    simp only [hclass, word_not_layout] at h
    cases h
  | quote =>
    rw [hclass] at h
    cases h
  | slash =>
    simp only [hclass, slash_not_layout] at h
    cases h
  | operator =>
    simp only [hclass, symbol_not_layout] at h
    cases h
  | punctuation =>
    simp only [hclass, symbol_not_layout] at h
    cases h
  | invalid =>
    simp only [hclass] at h
    split at h
    · rw [word_not_layout] at h
      cases h
    · cases h

/-- What is cut before a layout token stays when the text behind that token is exchanged. -/
theorem Cuts.stable_of_layout {ls ms : List Lexeme} {s : Text} {l : Lexeme}
    (h : Cuts s (ls ++ l :: ms) []) (hl : l.kind.isLayout = true) (t' : Text) :
    Cuts (Lexeme.joined ls ++ (l.text ++ t')) ls (l.text ++ t') := by
  obtain ⟨u, hfront, hback⟩ := h.split
  cases hback with
  | @cons c cs _ _ tail =>
    obtain ⟨w, b, htext, hb, hbreak⟩ := leading_layout hl
    have hu := leading_text c cs
    rw [htext, List.append_assoc] at hu
    rw [← hu] at hfront
    have hstable := hfront.stable hb hbreak t'
    rw [htext]
    simpa only [List.append_assoc, List.singleton_append] using hstable

end Lexeme

end Reparse
