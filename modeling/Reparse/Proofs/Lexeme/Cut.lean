import Reparse.Proofs.Text
import Reparse.Lexeme

/-!
# Cutting

What a lexeme takes is a beginning of the text, so a text is its lexemes joined together and what is
left behind them. Where cutting has come to hangs on the text alone.
-/

namespace Reparse

namespace Lexeme

theorem charClass_spec (c : Char) :
    match CharClass.of c with
    | .blank => c = ' ' ∨ c = '\t' ∨ c = '\r'
    | .lineFeed => c = '\n'
    | .digit => c.isDigit = true
    | .letter => c.isAlpha = true ∨ c = '_'
    | .quote => c = '"'
    | .slash => c = '/'
    | .operator => c ∈ ['+', '-', '*', '%', '!', '=', '<', '>', '&', '|']
    | .punctuation => c ∈ ['(', ')', '{', '}', '[', ']', ',', ';', ':', '.']
    | .invalid => ¬(c = ' ' ∨ c = '\t' ∨ c = '\r') ∧ c ≠ '\n' ∧ c.isDigit = false ∧
        c.isAlpha = false ∧ c ≠ '_' ∧ c ≠ '"' := by
  unfold CharClass.of
  grind

theorem prefix_append_of_drop {a b cs : Text} (ha : a <+: cs) (hb : b <+: cs.drop a.length) :
    a ++ b <+: cs := by
  obtain ⟨u, rfl⟩ := ha
  rw [List.drop_left] at hb
  exact (List.prefix_append_right_inj a).mpr hb

theorem blanks_begins (cs : Text) : blanks cs <+: cs := by
  induction cs with
  | nil => exact List.prefix_rfl
  | cons c cs ih =>
    unfold blanks
    split
    · exact (List.cons_prefix_cons).mpr ⟨rfl, ih⟩
    · exact List.nil_prefix

theorem wordCharacters_begins (cs : Text) : wordCharacters cs <+: cs := List.takeWhile_prefix _

theorem digits_begins (cs : Text) : digits cs <+: cs := List.takeWhile_prefix _

theorem fraction_begins (cs : Text) : fraction cs <+: cs := by
  unfold fraction
  split
  · split
    · exact List.nil_prefix
    · exact (List.cons_prefix_cons).mpr ⟨rfl, digits_begins _⟩
  · exact List.nil_prefix

theorem fraction_of_ne {c : Char} (hc : c ≠ '.') (cs : Text) : fraction (c :: cs) = [] := by
  rw [fraction.eq_def]
  split
  next heq => exact absurd (List.cons.inj heq).1 hc
  · rfl

theorem sign_begins (cs : Text) : sign cs <+: cs := by
  unfold sign
  split
  · split
    · exact (List.cons_prefix_cons).mpr ⟨rfl, List.nil_prefix⟩
    · exact List.nil_prefix
  · exact List.nil_prefix

theorem exponent_begins (cs : Text) : exponent cs <+: cs := by
  unfold exponent
  split
  · exact List.nil_prefix
  next c cs =>
    split
    · dsimp only
      split
      · exact List.nil_prefix
      · refine (List.cons_prefix_cons).mpr ⟨rfl, ?_⟩
        exact prefix_append_of_drop (sign_begins cs) (digits_begins _)
    · exact List.nil_prefix

theorem number_begins (c : Char) (cs : Text) : (number c cs).rest <+: cs := by
  have hmantissa : digits cs ++ fraction (cs.drop (digits cs).length) <+: cs :=
    prefix_append_of_drop (digits_begins cs) (fraction_begins _)
  have hliteral := prefix_append_of_drop hmantissa (exponent_begins _)
  exact prefix_append_of_drop hliteral (wordCharacters_begins _)

theorem stringRest_quote (cs : Text) : stringRest ('"' :: cs) = (['"'], true) := by
  rw [stringRest.eq_def]
  rfl

theorem stringRest_feed (cs : Text) : stringRest ('\n' :: cs) = ([], false) := by
  rw [stringRest.eq_def]
  rfl

theorem stringRest_escape_nil : stringRest ['\\'] = (['\\'], false) := by
  simp [stringRest]

theorem stringRest_escape_feed (cs : Text) :
    stringRest ('\\' :: '\n' :: cs) = (['\\'], false) := by
  simp [stringRest]

theorem stringRest_escape {d : Char} (hd : d ≠ '\n') (cs : Text) :
    stringRest ('\\' :: d :: cs) = ('\\' :: d :: (stringRest cs).1, (stringRest cs).2) := by
  rw [stringRest, if_neg (by decide), if_neg (by decide), if_pos rfl]
  exact if_neg hd

theorem stringRest_cons {c : Char} (hquote : c ≠ '"') (hfeed : c ≠ '\n') (hescape : c ≠ '\\')
    (cs : Text) : stringRest (c :: cs) = (c :: (stringRest cs).1, (stringRest cs).2) := by
  rw [stringRest.eq_def]
  simp only [if_neg hquote, if_neg hfeed, if_neg hescape]

theorem stringRest_begins (cs : Text) : (stringRest cs).1 <+: cs := by
  induction cs using stringRest.induct with
  | case1 => exact List.prefix_rfl
  | case2 cs =>
    rw [stringRest_quote]
    exact (List.cons_prefix_cons).mpr ⟨rfl, List.nil_prefix⟩
  | case3 cs =>
    rw [stringRest_feed]
    exact List.nil_prefix
  | case4 => exact ⟨[], by rw [stringRest_escape_nil, List.append_nil]⟩
  | case5 ds =>
    rw [stringRest_escape_feed]
    exact (List.cons_prefix_cons).mpr ⟨rfl, List.nil_prefix⟩
  | case6 d ds hd rest closed hrest _ _ ih =>
    rw [stringRest_escape hd]
    exact (List.cons_prefix_cons).mpr ⟨rfl, (List.cons_prefix_cons).mpr ⟨rfl, ih⟩⟩
  | case7 c cs hquote hfeed hescape rest closed hrest ih =>
    rw [stringRest_cons hquote hfeed hescape]
    exact (List.cons_prefix_cons).mpr ⟨rfl, ih⟩

theorem commentRest_begins (cs : Text) : (commentRest cs).1 <+: cs := by
  induction cs with
  | nil => exact List.prefix_rfl
  | cons c cs ih =>
    unfold commentRest
    split
    next hclose =>
      obtain ⟨-, hhead⟩ := Bool.and_eq_true_iff.mp hclose
      obtain ⟨ds, rfl⟩ := List.head?_eq_some_iff.mp (of_decide_eq_true hhead)
      exact (List.cons_prefix_cons).mpr ⟨rfl, (List.cons_prefix_cons).mpr ⟨rfl, List.nil_prefix⟩⟩
    · exact (List.cons_prefix_cons).mpr ⟨rfl, ih⟩

theorem symbol_begins (c : Char) (cs : Text) : (symbol c cs).rest <+: cs := by
  unfold symbol
  split
  · exact List.take_prefix ..
  · exact List.nil_prefix
  · exact List.nil_prefix

theorem slash_of_ne {c d : Char} (hline : d ≠ '/') (hblock : d ≠ '*') (ds : Text) :
    slash c (d :: ds) = symbol c [] := by
  rw [slash.eq_def]
  split
  next heq => exact absurd (List.cons.inj heq).1 hline
  next heq => exact absurd (List.cons.inj heq).1 hblock
  · rfl

theorem slash_begins (c : Char) (cs : Text) : (slash c cs).rest <+: cs := by
  unfold slash
  split
  · exact List.takeWhile_prefix _
  · exact (List.cons_prefix_cons).mpr ⟨rfl, commentRest_begins _⟩
  · exact (symbol_begins c []).trans List.nil_prefix

theorem leading_begins (c : Char) (cs : Text) : (leading c cs).rest <+: cs := by
  unfold leading
  split
  · split
    next hbreak =>
      obtain ⟨-, hhead⟩ := Bool.and_eq_true_iff.mp hbreak
      obtain ⟨ds, rfl⟩ := List.head?_eq_some_iff.mp (of_decide_eq_true hhead)
      exact (List.cons_prefix_cons).mpr ⟨rfl, List.nil_prefix⟩
    · exact blanks_begins cs
  · exact List.nil_prefix
  · exact number_begins c cs
  · exact wordCharacters_begins cs
  · exact stringRest_begins cs
  · exact slash_begins c cs
  · exact symbol_begins c cs
  · exact symbol_begins c cs
  · split
    · exact wordCharacters_begins cs
    · exact List.nil_prefix

theorem leading_first (c : Char) (cs : Text) : (leading c cs).first = c := by
  unfold leading
  split <;> try rfl
  · split <;> rfl
  · unfold slash
    split <;> try rfl
    unfold symbol
    split <;> rfl
  · unfold symbol
    split <;> rfl
  · unfold symbol
    split <;> rfl
  · split <;> rfl

theorem leading_text (c : Char) (cs : Text) :
    (leading c cs).text ++ cs.drop (leading c cs).rest.length = c :: cs := by
  have hrest := List.prefix_iff_eq_append.mp (leading_begins c cs)
  rw [text, leading_first, List.cons_append, hrest]

def joined (ls : List Lexeme) : Text := ls.flatMap text

@[simp] theorem joined_nil : joined [] = [] := rfl

@[simp] theorem joined_cons (l : Lexeme) (ls : List Lexeme) :
    joined (l :: ls) = l.text ++ joined ls := rfl

@[simp] theorem joined_append (ls ms : List Lexeme) :
    joined (ls ++ ms) = joined ls ++ joined ms := List.flatMap_append

theorem size_pos (l : Lexeme) : 0 < l.size := by
  have hpos := Char.utf8Size_pos l.first
  rw [size, text, Text.size_cons]
  omega

/-- Cutting the first text gives these lexemes and leaves the second text. -/
inductive Cuts : Text → List Lexeme → Text → Prop
  | nil (t : Text) : Cuts t [] t
  | cons {c : Char} {cs rest : Text} {ls : List Lexeme}
      (tail : Cuts (cs.drop (leading c cs).rest.length) ls rest) :
      Cuts (c :: cs) (leading c cs :: ls) rest

namespace Cuts

variable {t u v : Text} {ls ms : List Lexeme}

theorem joined (h : Cuts t ls u) : t = Lexeme.joined ls ++ u := by
  induction h with
  | nil t => rfl
  | cons tail ih =>
    rw [joined_cons, List.append_assoc, ← ih, leading_text]

theorem append (h : Cuts t ls u) (h' : Cuts u ms v) : Cuts t (ls ++ ms) v := by
  induction h with
  | nil t => exact h'
  | cons tail ih => exact .cons (ih h')

theorem split (h : Cuts t (ls ++ ms) v) : ∃ u, Cuts t ls u ∧ Cuts u ms v := by
  induction ls generalizing t with
  | nil => exact ⟨t, .nil t, h⟩
  | cons l ls ih =>
    cases h with
    | cons tail =>
      obtain ⟨u, htail, hrest⟩ := ih tail
      exact ⟨u, .cons htail, hrest⟩

theorem unique (h : Cuts t ls []) (h' : Cuts t ms []) : ls = ms := by
  induction ls generalizing t ms with
  | nil =>
    cases h
    cases h'
    rfl
  | cons l ls ih =>
    cases h with
    | cons tail =>
      cases h' with
      | cons tail' => rw [ih tail tail']

theorem takeLexemes (fuel : Nat) (h : t.length ≤ fuel) : Cuts t (Lexeme.takeLexemes fuel t) [] := by
  induction fuel generalizing t with
  | zero =>
    have ht : t = [] := List.length_eq_zero_iff.mp (Nat.le_zero.mp h)
    subst ht
    exact .nil []
  | succ fuel ih =>
    cases t with
    | nil => exact .nil []
    | cons c cs =>
      refine .cons (ih ?_)
      rw [List.length_drop]
      rw [List.length_cons] at h
      omega

theorem all (t : Text) : Cuts t (Lexeme.all t) [] := takeLexemes _ (Nat.le_refl _)

end Cuts

theorem joined_all (t : Text) : joined (all t) = t := by
  have hjoined := (Cuts.all t).joined
  rw [List.append_nil] at hjoined
  exact hjoined.symm

end Lexeme

end Reparse
