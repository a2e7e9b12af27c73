import Reparse.Proofs.Lexeme.Cut

/-!
# Lexemes of their own text

A lexeme comes out again when nothing but its own text is left to cut. So its kind and its fault can
be told from its text, whatever source it was found in.
-/

namespace Reparse

namespace Lexeme

variable {cs u : Text}

theorem drop_within (hu : u <+: cs) (n : Nat) : u.drop n <+: cs.drop n := by
  obtain ⟨v, rfl⟩ := hu
  rw [List.drop_append]
  exact List.prefix_append ..

theorem head?_within (hu : u <+: cs) {c : Char} (h : u.head? = some c) : cs.head? = some c := by
  obtain ⟨v, rfl⟩ := hu
  obtain ⟨tail, rfl⟩ := List.head?_eq_some_iff.mp h
  rfl

theorem takeWhile_within {p : Char → Bool} (hu : u <+: cs) (h : cs.takeWhile p <+: u) :
    u.takeWhile p = cs.takeWhile p := by
  obtain ⟨v, rfl⟩ := hu
  induction u with
  | nil => exact (List.prefix_nil.mp h).symm
  | cons c u ih =>
    rw [List.cons_append, List.takeWhile_cons] at h ⊢
    rw [List.takeWhile_cons]
    split at h
    next hc => rw [if_pos hc, if_pos hc, ih ((List.cons_prefix_cons).mp h).2]
    next hc => rw [if_neg hc, if_neg hc]

theorem digits_within (hu : u <+: cs) (h : digits cs <+: u) : digits u = digits cs :=
  takeWhile_within hu h

theorem wordCharacters_within (hu : u <+: cs) (h : wordCharacters cs <+: u) :
    wordCharacters u = wordCharacters cs :=
  takeWhile_within hu h

theorem digits_nil_within (hu : u <+: cs) (h : digits cs = []) : digits u = [] :=
  (digits_within hu (h ▸ List.nil_prefix)).trans h

theorem fraction_within (hu : u <+: cs) (h : fraction cs <+: u) : fraction u = fraction cs := by
  cases u with
  | nil => exact (List.prefix_nil.mp h).symm
  | cons c u =>
    obtain ⟨v, rfl⟩ := hu
    have hbegins : u <+: u ++ v := List.prefix_append u v
    rw [List.cons_append] at h ⊢
    by_cases hc : c = '.'
    · subst hc
      rw [fraction] at h ⊢
      rw [fraction]
      split at h
      next hnone =>
        rw [if_pos hnone, digits_nil_within hbegins (List.isEmpty_iff.mp hnone)]
        rfl
      next hsome =>
        rw [if_neg hsome, digits_within hbegins ((List.cons_prefix_cons).mp h).2, if_neg hsome]
    · rw [fraction_of_ne hc, fraction_of_ne hc]

theorem sign_within (hu : u <+: cs) :
    sign u = sign cs ∧ u.drop (sign u).length <+: cs.drop (sign cs).length ∨ u = [] := by
  obtain ⟨v, rfl⟩ := hu
  cases u with
  | nil => exact .inr rfl
  | cons c u =>
    have hsign : sign (c :: u ++ v) = sign (c :: u) := rfl
    refine .inl ⟨hsign.symm, ?_⟩
    rw [hsign, List.drop_append_of_le_length (sign_begins _).length_le]
    exact List.prefix_append ..

theorem exponent_within (hu : u <+: cs) (h : exponent cs <+: u) : exponent u = exponent cs := by
  cases u with
  | nil => exact (List.prefix_nil.mp h).symm
  | cons c u =>
    obtain ⟨v, rfl⟩ := hu
    rw [List.cons_append] at h ⊢
    simp only [exponent] at h ⊢
    split at h
    next hmark =>
      rw [if_pos hmark, if_pos hmark]
      split at h
      next hnone =>
        rw [if_pos hnone]
        rcases sign_within (List.prefix_append u v) with ⟨-, hdrop⟩ | rfl
        · rw [digits_nil_within hdrop (List.isEmpty_iff.mp hnone)]
          rfl
        · rfl
      next hsome =>
        rw [if_neg hsome]
        obtain ⟨rest, hrest⟩ : sign (u ++ v) ++ digits ((u ++ v).drop (sign (u ++ v)).length) <+: u :=
          ((List.cons_prefix_cons).mp h).2
        rw [List.append_assoc] at hrest
        rcases sign_within (List.prefix_append u v) with ⟨hsign, hdrop⟩ | rfl
        · rw [hsign] at hdrop ⊢
          have hmagnitude : digits ((u ++ v).drop (sign (u ++ v)).length) <+:
              u.drop (sign (u ++ v)).length :=
            ⟨rest, (congrArg (List.drop (sign (u ++ v)).length) hrest).symm.trans
              List.drop_left |>.symm⟩
          rw [digits_within hdrop hmagnitude, if_neg hsome]
        · -- Nothing is behind the mark, so neither is the magnitude.
          obtain ⟨-, hempty⟩ := List.append_eq_nil_iff.mp hrest
          exact absurd (List.isEmpty_iff.mpr (List.append_eq_nil_iff.mp hempty).1) hsome
    next hmark => rw [if_neg hmark, if_neg hmark]

theorem number_own_text (c : Char) (cs : Text) : number c (number c cs).rest = number c cs := by
  have hbegins := number_begins c cs
  obtain ⟨u, hu⟩ : ∃ u, u = (number c cs).rest := ⟨_, rfl⟩
  rw [← hu] at hbegins ⊢
  simp only [number] at hu
  generalize hwhole : digits cs = whole at hu
  generalize hfraction : fraction (cs.drop whole.length) = fractional at hu
  generalize hscale : exponent (cs.drop (whole ++ fractional).length) = scale at hu
  generalize hglued : wordCharacters (cs.drop (whole ++ fractional ++ scale).length) = glued at hu
  have hwhole' : digits u = whole := by
    rw [← hwhole]
    refine digits_within hbegins ?_
    rw [hwhole, hu, List.append_assoc, List.append_assoc]
    exact List.prefix_append ..
  have hfraction' : fraction (u.drop whole.length) = fractional := by
    rw [← hfraction]
    refine fraction_within (drop_within hbegins _) ?_
    rw [hfraction, hu, List.append_assoc, List.append_assoc, List.drop_left]
    exact List.prefix_append ..
  have hscale' : exponent (u.drop (whole ++ fractional).length) = scale := by
    rw [← hscale]
    refine exponent_within (drop_within hbegins _) ?_
    rw [hscale, hu, List.append_assoc, List.drop_left]
    exact List.prefix_append ..
  have hglued' : wordCharacters (u.drop (whole ++ fractional ++ scale).length) = glued := by
    rw [← hglued]
    have hend : u.drop (whole ++ fractional ++ scale).length = glued := by rw [hu, List.drop_left]
    exact wordCharacters_within (drop_within hbegins _) (hglued.trans hend.symm ▸ List.prefix_rfl)
  simp only [number, hwhole', hfraction', hscale', hglued', hwhole, hfraction, hscale, hglued]

theorem word_own_text (c : Char) (cs : Text) :
    word c (wordCharacters cs) = word c cs := by
  have hsame : wordCharacters (wordCharacters cs) = wordCharacters cs :=
    wordCharacters_within (wordCharacters_begins cs) List.prefix_rfl
  simp only [word, hsame]

theorem blanks_own_text (cs : Text) : blanks (blanks cs) = blanks cs := by
  induction cs with
  | nil => rfl
  | cons c cs ih =>
    simp only [blanks]
    split
    next hgoes =>
      have hgoes' : (c = ' ' || c = '\t' || c = '\r' && (blanks cs).head? ≠ some '\n') = true := by
        simp only [Bool.or_eq_true, Bool.and_eq_true, decide_eq_true_eq] at hgoes ⊢
        exact hgoes.imp_right fun hreturn =>
          ⟨hreturn.1, fun hfeed => hreturn.2 (head?_within (blanks_begins cs) hfeed)⟩
      rw [blanks, if_pos hgoes', ih]
    · rfl

theorem stringRest_own_text (cs : Text) : stringRest (stringRest cs).1 = stringRest cs := by
  induction cs using stringRest.induct with
  | case1 => rfl
  | case2 cs => rw [stringRest_quote, stringRest_quote]
  | case3 cs => rw [stringRest_feed, stringRest]
  | case4 => rw [stringRest_escape_nil, stringRest_escape_nil]
  | case5 ds => rw [stringRest_escape_feed, stringRest_escape_nil]
  | case6 d ds hd rest closed hrest _ _ ih => rw [stringRest_escape hd, stringRest_escape hd, ih]
  | case7 c cs hquote hfeed hescape rest closed hrest ih =>
    rw [stringRest_cons hquote hfeed hescape, stringRest_cons hquote hfeed hescape, ih]

theorem commentRest_own_text (cs : Text) : commentRest (commentRest cs).1 = commentRest cs := by
  induction cs with
  | nil => rfl
  | cons c cs ih =>
    rw [commentRest]
    split
    next hcloses =>
      rw [commentRest, if_pos (by simpa using And.left (Bool.and_eq_true_iff.mp hcloses))]
    next hgoes =>
      have hgoes' : ¬(c = '*' && (commentRest cs).1.head? = some '/') = true := by
        simp only [Bool.and_eq_true, decide_eq_true_eq] at hgoes ⊢
        exact fun hslash => hgoes (hslash.imp_right (head?_within (commentRest_begins cs)))
      rw [commentRest, if_neg hgoes', ih]

theorem symbol_own_text (c : Char) (cs : Text) : symbol c (symbol c cs).rest = symbol c cs := by
  cases hlong : symbol? (c :: cs.take 1) with
  | some kind =>
    have htake : (cs.take 1).take 1 = cs.take 1 := by rw [List.take_take]; rfl
    simp only [symbol, hlong, htake]
  | none =>
    cases hshort : symbol? [c] with
    | some kind => simp only [symbol, hlong, hshort, List.take_nil]
    | none => simp only [symbol, hlong, hshort, List.take_nil]

theorem slash_own_text (c : Char) (cs : Text) : slash c (slash c cs).rest = slash c cs := by
  have hsymbol : (symbol c []).rest = [] := List.prefix_nil.mp (symbol_begins c [])
  cases cs with
  | nil => exact congrArg (slash c) hsymbol
  | cons d ds =>
    by_cases hline : d = '/'
    · subst hline
      have hcomment : ('/' :: ds).takeWhile (· ≠ '\n') = '/' :: ds.takeWhile (· ≠ '\n') := rfl
      rw [slash, hcomment, slash, ← hcomment,
        takeWhile_within (List.takeWhile_prefix _) List.prefix_rfl]
    · by_cases hblock : d = '*'
      · subst hblock
        simp only [slash, commentRest_own_text]
      · rw [slash_of_ne hline hblock, hsymbol]
        rfl

theorem leading_own_text (c : Char) (cs : Text) :
    leading c (leading c cs).rest = leading c cs := by
  obtain ⟨l, hl⟩ : ∃ l, leading c cs = l := ⟨_, rfl⟩
  rw [hl]
  unfold leading at hl
  cases hclass : CharClass.of c with
  | blank =>
    simp only [hclass] at hl
    split at hl
    next hbreak =>
      subst hl
      simp only [leading, hclass, (Bool.and_eq_true_iff.mp hbreak).1]
      rfl
    next hbreak =>
      subst hl
      have hbreak' : ¬(c = '\r' && (blanks cs).head? = some '\n') = true := by
        simp only [Bool.and_eq_true, decide_eq_true_eq] at hbreak ⊢
        exact fun hfeed => hbreak (hfeed.imp_right (head?_within (blanks_begins cs)))
      simp only [leading, hclass, if_neg hbreak', blanks_own_text]
  | lineFeed =>
    subst hl
    simp only [leading, hclass]
  | digit =>
    simp only [hclass] at hl
    subst hl
    simp only [leading, hclass, number_own_text]
  | letter =>
    simp only [hclass] at hl
    subst hl
    simp only [leading, hclass]
    exact word_own_text c cs
  | quote =>
    simp only [hclass] at hl
    subst hl
    simp only [leading, hclass, string, stringRest_own_text]
  | slash =>
    simp only [hclass] at hl
    subst hl
    simp only [leading, hclass, slash_own_text]
  | operator =>
    simp only [hclass] at hl
    subst hl
    simp only [leading, hclass, symbol_own_text]
  | punctuation =>
    simp only [hclass] at hl
    subst hl
    simp only [leading, hclass, symbol_own_text]
  | invalid =>
    simp only [hclass] at hl
    split at hl
    next hletter =>
      subst hl
      simp only [leading, hclass, hletter, if_true]
      exact word_own_text c cs
    next hletter =>
      subst hl
      simp only [leading, hclass, hletter]
      rfl

end Lexeme

end Reparse
