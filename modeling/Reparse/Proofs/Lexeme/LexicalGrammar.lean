import Mathlib.Data.List.TakeWhile
import Reparse.Proofs.Lexeme.Layout

/-!
# The lexical grammar

What a lexeme can look like, sort by sort, and what may stand behind it. Of all beginnings of a text
that have one of these forms cutting takes the longest, with the kind and the fault of its form.
-/

namespace Reparse

namespace Lexeme

def IsBlank (c : Char) : Prop := c = ' ' ∨ c = '\t' ∨ c = '\r'

def StartsWord (c : Char) : Prop := c.isAlpha = true ∨ c = '_' ∨ Text.isForeignLetter c = true

def ContinuesWord (c : Char) : Prop := StartsWord c ∨ c.isDigit = true

def Digits (ds : Text) : Prop := ds ≠ [] ∧ ∀ d ∈ ds, d.isDigit = true

inductive Fraction : Text → Prop
  | absent : Fraction []
  | present {ds : Text} (hds : Digits ds) : Fraction ('.' :: ds)

inductive Exponent : Text → Prop
  | absent : Exponent []
  | present {mark : Char} {sign ds : Text} (hmark : mark ∈ ['e', 'E'])
      (hsign : sign ∈ [[], ['+'], ['-']]) (hds : Digits ds) : Exponent (mark :: (sign ++ ds))

inductive Numeral : Text → Kind → Prop
  | mk {whole fraction exponent : Text} (hwhole : Digits whole) (hfraction : Fraction fraction)
      (hexponent : Exponent exponent) :
      Numeral (whole ++ fraction ++ exponent)
        (if fraction = [] ∧ exponent = [] then .integer else .float)

inductive StringBody : Text → Prop
  | nil : StringBody []
  | plain {c : Char} {w : Text} (hquote : c ≠ '"') (hfeed : c ≠ '\n') (hescape : c ≠ '\\')
      (hw : StringBody w) : StringBody (c :: w)
  | escape {c : Char} {w : Text} (hfeed : c ≠ '\n') (hw : StringBody w) :
      StringBody ('\\' :: c :: w)

def IsSymbol (k : Kind) : Prop := k.category = .operator ∨ k.category = .punctuation

def EndsLine (u : Text) : Prop := u = [] ∨ u.head? = some '\n'

/-- The text `w` can be a lexeme of this kind and with this fault where `u` stands behind it. -/
inductive Form : (w u : Text) → Kind → Option Code → Prop
  | lineFeed {u : Text} : Form ['\n'] u .newline none
  | lineBreak {u : Text} : Form ['\r', '\n'] u .newline none
  | blanks {w u : Text} (hw : w ≠ []) (hblank : ∀ c ∈ w, IsBlank c)
      (hbreak : ¬(w.getLast? = some '\r' ∧ u.head? = some '\n')) : Form w u .whitespace none
  | word {c : Char} {w u : Text} (hc : StartsWord c) (hw : ∀ d ∈ w, ContinuesWord d)
      (hkeyword : ∀ k : Kind, k.category = .keyword → k.spelling? ≠ some (c :: w)) :
      Form (c :: w) u .identifier none
  | keyword {k : Kind} {w u : Text} (hk : k.category = .keyword) (hw : k.spelling? = some w) :
      Form w u k none
  /-- What is glued to a number starts where no longer number could be read. -/
  | number {n g u : Text} {k : Kind} (hn : Numeral n k)
      (hlongest : ∀ n' k', Numeral n' k' → n' <+: n ++ g ++ u → n'.length ≤ n.length)
      (hg : ∀ c ∈ g, ContinuesWord c) :
      Form (n ++ g) u k (if g = [] then none else some .malformedNumber)
  | string {w u : Text} (hw : StringBody w) : Form ('"' :: (w ++ ['"'])) u .string none
  | openString {w d u : Text} (hw : StringBody w) (hd : d ∈ [[], ['\\']]) (hu : EndsLine u) :
      Form ('"' :: (w ++ d)) u .string (some .openString)
  | lineComment {w u : Text} (hw : '\n' ∉ w) (hu : EndsLine u) :
      Form ('/' :: '/' :: w) u .comment none
  | blockComment {w u : Text} (hw : ¬['*', '/'] <:+: w) :
      Form ('/' :: '*' :: (w ++ ['*', '/'])) u .comment none
  | openComment {w : Text} (hw : ¬['*', '/'] <:+: w) :
      Form ('/' :: '*' :: w) [] .comment (some .openComment)
  | symbol {k : Kind} {w u : Text} (hk : IsSymbol k) (hw : k.spelling? = some w) : Form w u k none
  | strange {c : Char} {u : Text} (hblank : ¬IsBlank c) (hfeed : c ≠ '\n')
      (hword : ¬ContinuesWord c) (hquote : c ≠ '"')
      (hsymbol : ∀ k : Kind, IsSymbol k → k.spelling? ≠ some [c]) :
      Form [c] u .unknown (some .strangeCharacter)

/-- The lexeme is the longest beginning of the text that has a form. -/
structure Longest (t : Text) (l : Lexeme) : Prop where
  form : ∃ u, t = l.text ++ u ∧ Form l.text u l.kind l.fault
  longest : ∀ w u k f, t = w ++ u → Form w u k f → w.length ≤ l.text.length

theorem isWordCharacter_iff (c : Char) : isWordCharacter c = true ↔ ContinuesWord c := by
  simp only [isWordCharacter, ContinuesWord, StartsWord, Char.isAlphanum, Bool.or_eq_true,
    decide_eq_true_eq]
  grind

variable {c : Char} {cs w u : Text} {k : Kind} {f : Option Code}

theorem toNat_of_isAlpha (h : c.isAlpha = true) : 65 ≤ c.toNat ∧ c.toNat < 123 := by
  delta Char.isAlpha Char.isUpper Char.isLower at h
  simp only [Bool.or_eq_true, Bool.and_eq_true, decide_eq_true_eq, UInt32.le_iff_toNat_le,
    ge_iff_le] at h
  have hc : c.toNat = c.val.toNat := rfl
  have hfirst : 'A'.val.toNat = 65 := rfl
  have hcapital : 'Z'.val.toNat = 90 := rfl
  have hsmall : 'a'.val.toNat = 97 := rfl
  have hlast : 'z'.val.toNat = 122 := rfl
  omega

theorem toNat_of_isDigit (h : c.isDigit = true) : 48 ≤ c.toNat ∧ c.toNat < 58 := by
  simp only [Char.isDigit, Bool.and_eq_true, decide_eq_true_eq, UInt32.le_iff_toNat_le,
    ge_iff_le] at h
  have hc : c.toNat = c.val.toNat := rfl
  have hfirst : '0'.val.toNat = 48 := rfl
  have hlast : '9'.val.toNat = 57 := rfl
  omega

def symbolCharacters : Text :=
  ['+', '-', '*', '%', '!', '=', '<', '>', '&', '|'] ++
    ['(', ')', '{', '}', '[', ']', ',', ';', ':', '.']

theorem toNat_of_mem_symbolCharacters (h : c ∈ symbolCharacters) : c.toNat < 128 := by
  have hall : (symbolCharacters.all fun d => decide (d.toNat < 128)) = true := by decide
  exact of_decide_eq_true (List.all_eq_true.mp hall c h)

theorem toNat_of_class (h : CharClass.of c ≠ .invalid) : c.toNat < 128 := by
  have hspec := charClass_spec c
  cases hclass : CharClass.of c with
  | blank =>
    rw [hclass] at hspec
    rcases hspec with rfl | rfl | rfl <;> decide
  | lineFeed =>
    rw [hclass] at hspec
    subst hspec
    decide
  | digit =>
    rw [hclass] at hspec
    have hrange := toNat_of_isDigit hspec
    omega
  | letter =>
    rw [hclass] at hspec
    rcases hspec with hletter | rfl
    · have hrange := toNat_of_isAlpha hletter
      omega
    · decide
  | quote =>
    rw [hclass] at hspec
    subst hspec
    decide
  | slash =>
    rw [hclass] at hspec
    subst hspec
    decide
  | operator =>
    rw [hclass] at hspec
    exact toNat_of_mem_symbolCharacters (List.mem_append_left _ hspec)
  | punctuation =>
    rw [hclass] at hspec
    exact toNat_of_mem_symbolCharacters (List.mem_append_right _ hspec)
  | invalid => exact absurd hclass h

theorem class_of_isDigit (h : c.isDigit = true) : CharClass.of c = .digit := by
  have hrange := toNat_of_isDigit h
  unfold CharClass.of
  rw [if_neg, if_neg, if_pos h]
  · rintro rfl
    simp at hrange
  · simp only [Bool.or_eq_true, decide_eq_true_eq]
    rintro ((rfl | rfl) | rfl) <;> simp at hrange

theorem class_of_isAlpha (h : c.isAlpha = true) : CharClass.of c = .letter := by
  have hrange := toNat_of_isAlpha h
  unfold CharClass.of
  rw [if_neg, if_neg, if_neg, if_pos (by simp [h])]
  · intro hdigit
    have hother := toNat_of_isDigit hdigit
    omega
  · rintro rfl
    simp at hrange
  · simp only [Bool.or_eq_true, decide_eq_true_eq]
    rintro ((rfl | rfl) | rfl) <;> simp at hrange

theorem class_of_isForeignLetter (h : Text.isForeignLetter c = true) :
    CharClass.of c = .invalid := by
  simp only [Text.isForeignLetter, Bool.and_eq_true, decide_eq_true_eq] at h
  refine Decidable.byContradiction fun hclass => ?_
  have hrange := toNat_of_class hclass
  omega

theorem class_of_isBlank (h : IsBlank c) : CharClass.of c = .blank := by
  rcases h with rfl | rfl | rfl <;> rfl

theorem leading_of_isDigit (h : c.isDigit = true) (cs : Text) : leading c cs = number c cs := by
  simp only [leading, class_of_isDigit h]

theorem leading_of_startsWord (h : StartsWord c) (cs : Text) : leading c cs = word c cs := by
  rcases h with h | rfl | h
  · simp only [leading, class_of_isAlpha h]
  · rfl
  · simp only [leading, class_of_isForeignLetter h, if_pos h]

theorem leading_of_isBlank (h : IsBlank c) (hbreak : ¬(c = '\r' ∧ cs.head? = some '\n')) :
    leading c cs = ⟨.whitespace, c, blanks cs, none⟩ := by
  simp only [leading, class_of_isBlank h]
  exact if_neg (by simpa using hbreak)

theorem takeWhile_of_stop {p : Char → Bool} (hw : ∀ d ∈ w, p d = true)
    (hu : ∀ d, u.head? = some d → p d = false) : (w ++ u).takeWhile p = w := by
  rw [List.takeWhile_append_of_pos hw]
  cases u with
  | nil => exact List.append_nil w
  | cons d u => rw [List.takeWhile_cons_of_neg (by rw [hu d rfl]; decide), List.append_nil]

theorem prefix_takeWhile {p : Char → Bool} (hw : ∀ d ∈ w, p d = true) (h : w <+: cs) :
    w <+: cs.takeWhile p := by
  obtain ⟨u, rfl⟩ := h
  rw [List.takeWhile_append_of_pos hw]
  exact List.prefix_append ..

theorem wordCharacters_mem : ∀ d ∈ wordCharacters cs, ContinuesWord d :=
  fun _ hd => (isWordCharacter_iff _).mp (List.mem_takeWhile_imp hd)

theorem prefix_wordCharacters (hw : ∀ d ∈ w, ContinuesWord d) (h : w <+: cs) :
    w <+: wordCharacters cs :=
  prefix_takeWhile (fun d hd => (isWordCharacter_iff d).mpr (hw d hd)) h

theorem blanks_mem (cs : Text) : ∀ d ∈ blanks cs, IsBlank d := by
  induction cs with
  | nil => exact fun d hd => absurd hd List.not_mem_nil
  | cons c cs ih =>
    rw [blanks]
    split
    next hgoes =>
      simp only [Bool.or_eq_true, Bool.and_eq_true, decide_eq_true_eq] at hgoes
      refine List.forall_mem_cons.mpr ⟨?_, ih⟩
      rcases hgoes with (hc | hc) | ⟨hc, -⟩
      · exact .inl hc
      · exact .inr (.inl hc)
      · exact .inr (.inr hc)
    · exact fun d hd => absurd hd List.not_mem_nil

theorem prefix_blanks (hblank : ∀ d ∈ w, IsBlank d)
    (hbreak : ¬(w.getLast? = some '\r' ∧ u.head? = some '\n')) : w <+: blanks (w ++ u) := by
  induction w with
  | nil => exact List.nil_prefix
  | cons d w ih =>
    obtain ⟨hd, hw⟩ := List.forall_mem_cons.mp hblank
    have hgoes : (d = ' ' || d = '\t' || d = '\r' && (w ++ u).head? ≠ some '\n') = true := by
      simp only [Bool.or_eq_true, Bool.and_eq_true, decide_eq_true_eq]
      rcases hd with hd | hd | hd
      · exact .inl (.inl hd)
      · exact .inl (.inr hd)
      · refine .inr ⟨hd, fun hfeed => ?_⟩
        cases w with
        | nil => exact hbreak ⟨by rw [hd]; rfl, hfeed⟩
        | cons e w =>
          obtain rfl : e = '\n' := Option.some.inj hfeed
          rcases hw _ List.mem_cons_self with he | he | he <;> cases he
    rw [List.cons_append, blanks, if_pos hgoes]
    refine (List.cons_prefix_cons).mpr ⟨rfl, ih hw fun hlast => hbreak ⟨?_, hlast.2⟩⟩
    rw [List.getLast?_cons, hlast.1]
    rfl

def mantissa (cs : Text) : Text := digits cs ++ fraction (cs.drop (digits cs).length)

def literal (cs : Text) : Text := mantissa cs ++ exponent (cs.drop (mantissa cs).length)

def literalKind (cs : Text) : Kind :=
  if (fraction (cs.drop (digits cs).length)).isEmpty &&
    (exponent (cs.drop (mantissa cs).length)).isEmpty then .integer else .float

def glued (cs : Text) : Text := wordCharacters (cs.drop (literal cs).length)

theorem number_eq (c : Char) (cs : Text) : number c cs =
    ⟨literalKind cs, c, literal cs ++ glued cs,
      if (glued cs).isEmpty then none else some .malformedNumber⟩ := rfl

theorem digits_mem (cs : Text) : ∀ d ∈ digits cs, d.isDigit = true :=
  fun _ hd => List.mem_takeWhile_imp hd

theorem digits_form (h : (digits cs).isEmpty = false) : Digits (digits cs) :=
  ⟨fun hnil => by simp [hnil] at h, digits_mem cs⟩

theorem prefix_digits {ds : Text} (hds : ∀ d ∈ ds, d.isDigit = true) (h : ds <+: cs) :
    ds <+: digits cs := prefix_takeWhile hds h

theorem fraction_form (cs : Text) : Fraction (fraction cs) := by
  unfold fraction
  split
  next ds =>
    split
    · exact .absent
    next hsome => exact .present (digits_form (by simpa using hsome))
  · exact .absent

theorem sign_mem (cs : Text) : sign cs ∈ [[], ['+'], ['-']] := by
  unfold sign
  split
  · split
    next hsign =>
      simp only [Bool.or_eq_true, decide_eq_true_eq] at hsign
      rcases hsign with rfl | rfl <;> decide
    · decide
  · decide

theorem exponent_form (cs : Text) : Exponent (exponent cs) := by
  unfold exponent
  split
  · exact .absent
  · dsimp only
    split
    next hmark =>
      split
      · exact .absent
      next hsome =>
        refine .present ?_ (sign_mem _) (digits_form (by simpa using hsome))
        simpa using hmark
    · exact .absent

theorem numeral_literal (hc : c.isDigit = true) (cs : Text) :
    Numeral (c :: literal cs) (literalKind cs) := by
  have hwhole : Digits (c :: digits cs) :=
    ⟨List.cons_ne_nil _ _, List.forall_mem_cons.mpr ⟨hc, digits_mem cs⟩⟩
  have hnumeral := Numeral.mk hwhole (fraction_form (cs.drop (digits cs).length))
    (exponent_form (cs.drop (mantissa cs).length))
  simpa [literal, literalKind, mantissa] using hnumeral

theorem length_le_fraction {f : Text} (hf : Fraction f) (h : f <+: cs) :
    f.length ≤ (fraction cs).length := by
  cases hf with
  | absent => exact Nat.zero_le _
  | @present ds hds =>
    obtain ⟨u, rfl⟩ := h
    have hmore := prefix_digits hds.2 (List.prefix_append ds u)
    have hsome : ¬(digits (ds ++ u)).isEmpty = true := fun hnil =>
      hds.1 (List.prefix_nil.mp (List.isEmpty_iff.mp hnil ▸ hmore))
    rw [List.cons_append, fraction, if_neg hsome]
    exact Nat.succ_le_succ hmore.length_le

theorem fraction_of_mark {f : Text} {mark : Char} (hf : Fraction f) (hmark : mark ∈ ['e', 'E'])
    (u : Text) : fraction (f ++ mark :: u) = f := by
  have hother : mark.isDigit = false ∧ mark ≠ '.' := by
    simp only [List.mem_cons, List.not_mem_nil, or_false] at hmark
    rcases hmark with rfl | rfl <;> decide
  cases hf with
  | absent => exact fraction_of_ne hother.2 u
  | @present ds hds =>
    have hsame : digits (ds ++ mark :: u) = ds :=
      takeWhile_of_stop hds.2 fun d hd => Option.some.inj hd ▸ hother.1
    rw [List.cons_append, fraction, hsame, if_neg]
    exact fun hnil => hds.1 (List.isEmpty_iff.mp hnil)

theorem sign_append_digits {sgn ds : Text} (hsign : sgn ∈ [[], ['+'], ['-']]) (hds : Digits ds)
    (u : Text) : sign (sgn ++ ds ++ u) = sgn := by
  rcases List.mem_cons.mp hsign with rfl | hsign
  · obtain ⟨hne, hall⟩ := hds
    cases ds with
    | nil => exact absurd rfl hne
    | cons d ds =>
      have hdigit := hall d List.mem_cons_self
      refine if_neg ?_
      simp only [Bool.or_eq_true, decide_eq_true_eq]
      rintro (rfl | rfl) <;> cases hdigit
  · rcases List.mem_cons.mp hsign with rfl | hsign
    · rfl
    · rw [List.mem_singleton.mp hsign]
      rfl

theorem length_le_exponent {e : Text} (he : Exponent e) (h : e <+: cs) :
    e.length ≤ (exponent cs).length := by
  cases he with
  | absent => exact Nat.zero_le _
  | @present mark sgn ds hmark hsign hds =>
    obtain ⟨u, rfl⟩ := h
    have hsame := sign_append_digits hsign hds u
    have hmark' : (mark = 'e' || mark = 'E') = true := by simpa using hmark
    have hmore := prefix_digits hds.2 (List.prefix_append ds u)
    have hsome : ¬(digits (ds ++ u)).isEmpty = true := fun hnil =>
      hds.1 (List.prefix_nil.mp (List.isEmpty_iff.mp hnil ▸ hmore))
    have hdrop : (sgn ++ ds ++ u).drop sgn.length = ds ++ u := by
      rw [List.append_assoc, List.drop_left]
    rw [List.cons_append, exponent]
    simp only [hmark', if_true, hsame, hdrop, if_neg hsome, List.cons_append, List.length_cons,
      List.length_append]
    exact Nat.succ_le_succ (Nat.add_le_add_left hmore.length_le _)

theorem digits_of_stop {ds e : Text} (hds : ∀ d ∈ ds, d.isDigit = true)
    (he : e.head? = some '.' ∨ e.head? = some 'e' ∨ e.head? = some 'E') :
    digits (ds ++ e) = ds := by
  refine takeWhile_of_stop hds fun d hd => ?_
  rw [hd] at he
  rcases he with he | he | he <;> rw [Option.some.inj he] <;> rfl

theorem mantissa_of_digits {ds v : Text} (h : digits (ds ++ v) = ds) :
    mantissa (ds ++ v) = ds ++ fraction v := by
  rw [mantissa, h, List.drop_left]

theorem literal_of_exponent {ds f e u : Text} (hds : ∀ d ∈ ds, d.isDigit = true)
    (hf : Fraction f) (he : Exponent e) (hsome : e ≠ []) :
    (ds ++ f ++ e).length ≤ (literal (ds ++ f ++ e ++ u)).length ∧
      literalKind (ds ++ f ++ e ++ u) = .float := by
  cases he with
  | absent => exact absurd rfl hsome
  | @present mark sgn es hmark hsign hes =>
    have hmarked : mark = 'e' ∨ mark = 'E' := by simpa using hmark
    have hdigits : digits (ds ++ (f ++ (mark :: (sgn ++ es) ++ u))) = ds := by
      refine digits_of_stop hds ?_
      cases hf with
      | absent => exact .inr (hmarked.imp (congrArg some) (congrArg some))
      | present => exact .inl rfl
    have hmantissa := mantissa_of_digits hdigits
    rw [List.cons_append, fraction_of_mark hf hmark] at hmantissa
    have hexponent := length_le_exponent (.present hmark hsign hes)
      (List.prefix_append (mark :: (sgn ++ es)) u)
    have hassoc : ds ++ f ++ mark :: (sgn ++ es) ++ u = ds ++ (f ++ mark :: (sgn ++ es ++ u)) := by
      simp only [List.append_assoc, List.cons_append]
    have hdrop : (ds ++ (f ++ mark :: (sgn ++ es ++ u))).drop (ds ++ f).length =
        mark :: (sgn ++ es ++ u) := by
      rw [← List.append_assoc, List.drop_left]
    rw [List.cons_append] at hexponent
    rw [hassoc, literal, literalKind, hmantissa, hdrop]
    refine ⟨?_, if_neg fun hnone => ?_⟩
    · generalize ds ++ f = m
      rw [List.length_append, List.length_append]
      exact Nat.add_le_add_left hexponent _
    · rw [Bool.and_eq_true, List.isEmpty_iff, List.isEmpty_iff] at hnone
      rw [hnone.2] at hexponent
      exact absurd hexponent (Nat.not_succ_le_zero _)

theorem literal_of_fraction {ds f u : Text} (hds : ∀ d ∈ ds, d.isDigit = true)
    (hf : Fraction f) (hsome : f ≠ []) :
    (ds ++ f).length ≤ (literal (ds ++ f ++ u)).length ∧
      literalKind (ds ++ f ++ u) = .float := by
  have hdigits : digits (ds ++ (f ++ u)) = ds := by
    refine digits_of_stop hds ?_
    cases hf with
    | absent => exact absurd rfl hsome
    | present => exact .inl rfl
  have hmantissa := mantissa_of_digits hdigits
  have hfraction := length_le_fraction hf (List.prefix_append f u)
  rw [List.append_assoc, literal, literalKind, hmantissa, hdigits, List.drop_left,
    List.length_append, List.length_append, List.length_append]
  refine ⟨Nat.le_trans (Nat.add_le_add_left hfraction _) (Nat.le_add_right ..),
    if_neg fun hnone => ?_⟩
  rw [Bool.and_eq_true, List.isEmpty_iff, List.isEmpty_iff] at hnone
  rw [hnone.1] at hfraction
  exact hsome (List.length_eq_zero_iff.mp (Nat.le_zero.mp hfraction))

theorem literal_of_digits {ds u : Text} (hds : ∀ d ∈ ds, d.isDigit = true) :
    ds.length ≤ (literal (ds ++ u)).length ∧
      (ds.length = (literal (ds ++ u)).length → literalKind (ds ++ u) = .integer) := by
  have hdigits := (prefix_digits hds (List.prefix_append ds u)).length_le
  rw [literal, mantissa, literalKind, mantissa, List.length_append, List.length_append]
  refine ⟨by omega, fun hlength => if_pos ?_⟩
  rw [Bool.and_eq_true, List.isEmpty_iff, List.isEmpty_iff, ← List.length_eq_zero_iff,
    ← List.length_eq_zero_iff]
  omega

theorem literal_begins (cs : Text) : literal cs <+: cs :=
  prefix_append_of_drop (prefix_append_of_drop (digits_begins cs) (fraction_begins _))
    (exponent_begins _)

theorem numeral_head {n : Text} (h : Numeral n k) (hn : n <+: c :: cs) : c.isDigit = true := by
  obtain ⟨⟨hne, hwhole⟩, -, -⟩ := h
  rename_i whole f e
  cases whole with
  | nil => exact absurd rfl hne
  | cons d ds =>
    obtain ⟨u, hu⟩ := hn
    obtain ⟨rfl, -⟩ := List.cons.inj hu
    exact hwhole d List.mem_cons_self

theorem numeral_le {n : Text} (h : Numeral n k) (hn : n <+: c :: cs) :
    n <+: c :: literal cs ∧ (n = c :: literal cs → k = literalKind cs) := by
  suffices hle : n.length ≤ (c :: literal cs).length ∧
      (n.length = (c :: literal cs).length → k = literalKind cs) from
    ⟨List.prefix_of_prefix_length_le hn ((List.cons_prefix_cons).mpr ⟨rfl, literal_begins cs⟩) hle.1,
      fun heq => hle.2 (congrArg List.length heq)⟩
  obtain ⟨hwhole, hfraction, hexponent⟩ := h
  rename_i whole f e
  cases whole with
  | nil => exact absurd rfl hwhole.1
  | cons d ds =>
    obtain ⟨u, hu⟩ := hn
    obtain ⟨rfl, rfl⟩ := List.cons.inj hu
    have hds : ∀ d ∈ ds, d.isDigit = true := fun d hd => hwhole.2 d (List.mem_cons_of_mem _ hd)
    simp only [List.append_eq]
    by_cases he : e = []
    · subst he
      by_cases hf : f = []
      · subst hf
        obtain ⟨hle, hkind⟩ := literal_of_digits (u := u) hds
        simp only [List.append_nil, List.length_cons] at hle hkind ⊢
        exact ⟨Nat.succ_le_succ hle, fun heq => (hkind (Nat.succ.inj heq)).symm⟩
      · obtain ⟨hle, hkind⟩ := literal_of_fraction (u := u) hds hfraction hf
        simp only [List.append_nil, if_neg fun h : f = [] ∧ _ => hf h.1]
        exact ⟨Nat.succ_le_succ hle, fun _ => hkind.symm⟩
    · obtain ⟨hle, hkind⟩ := literal_of_exponent (u := u) hds hfraction hexponent he
      rw [if_neg fun h => he h.2, hkind]
      exact ⟨Nat.succ_le_succ hle, fun _ => rfl⟩

theorem stringRest_of_body (hw : StringBody w) (u : Text) :
    stringRest (w ++ u) = (w ++ (stringRest u).1, (stringRest u).2) := by
  induction hw with
  | nil => rfl
  | plain hquote hfeed hescape _ ih =>
    rw [List.cons_append, stringRest_cons hquote hfeed hescape, ih]
    rfl
  | escape hfeed _ ih =>
    rw [List.cons_append, List.cons_append, stringRest_escape hfeed, ih]
    rfl

theorem stringRest_of_endsLine (hu : EndsLine u) : stringRest u = ([], false) := by
  cases u with
  | nil => rfl
  | cons c u =>
    obtain rfl : c = '\n' := hu.elim (fun hnil => nomatch hnil) Option.some.inj
    exact stringRest_feed u

theorem stringRest_of_backslash (hu : EndsLine u) :
    stringRest ('\\' :: u) = (['\\'], false) := by
  cases u with
  | nil => exact stringRest_escape_nil
  | cons c u =>
    obtain rfl : c = '\n' := hu.elim (fun hnil => nomatch hnil) Option.some.inj
    exact stringRest_escape_feed u

theorem stringRest_form (cs : Text) :
    (∃ w, StringBody w ∧ stringRest cs = (w ++ ['"'], true)) ∨
      ∃ w d u, StringBody w ∧ d ∈ [[], ['\\']] ∧ EndsLine u ∧ cs = w ++ d ++ u ∧
        stringRest cs = (w ++ d, false) := by
  induction cs using stringRest.induct with
  | case1 => exact .inr ⟨[], [], [], .nil, by decide, .inl rfl, rfl, rfl⟩
  | case2 cs => exact .inl ⟨[], .nil, stringRest_quote cs⟩
  | case3 cs => exact .inr ⟨[], [], '\n' :: cs, .nil, by decide, .inr rfl, rfl, stringRest_feed cs⟩
  | case4 => exact .inr ⟨[], ['\\'], [], .nil, by decide, .inl rfl, rfl, stringRest_escape_nil⟩
  | case5 ds =>
    exact .inr ⟨[], ['\\'], '\n' :: ds, .nil, by decide, .inr rfl, rfl, stringRest_escape_feed ds⟩
  | case6 d ds hd rest closed hrest _ _ ih =>
    rw [stringRest_escape hd]
    rcases ih with ⟨w, hw, hclosed⟩ | ⟨w, e, u, hw, he, hu, rfl, hopen⟩
    · exact .inl ⟨'\\' :: d :: w, .escape hd hw, by rw [hclosed]; rfl⟩
    · exact .inr ⟨'\\' :: d :: w, e, u, .escape hd hw, he, hu, rfl, by rw [hopen]; rfl⟩
  | case7 c cs hquote hfeed hescape rest closed hrest ih =>
    rw [stringRest_cons hquote hfeed hescape]
    rcases ih with ⟨w, hw, hclosed⟩ | ⟨w, e, u, hw, he, hu, rfl, hopen⟩
    · exact .inl ⟨c :: w, .plain hquote hfeed hescape hw, by rw [hclosed]; rfl⟩
    · exact .inr ⟨c :: w, e, u, .plain hquote hfeed hescape hw, he, hu, rfl, by rw [hopen]; rfl⟩

theorem not_closing_cons (hw : ¬['*', '/'] <:+: c :: w) :
    ¬(c = '*' && w.head? = some '/') = true ∧ ¬['*', '/'] <:+: w := by
  refine ⟨fun hcloses => hw ?_, fun hin => hw (List.infix_cons hin)⟩
  obtain ⟨hc, hhead⟩ := Bool.and_eq_true_iff.mp hcloses
  obtain ⟨v, rfl⟩ := List.head?_eq_some_iff.mp (of_decide_eq_true hhead)
  rw [of_decide_eq_true hc]
  exact ⟨[], v, rfl⟩

theorem commentRest_closed (hw : ¬['*', '/'] <:+: w) (u : Text) :
    commentRest (w ++ '*' :: '/' :: u) = (w ++ ['*', '/'], true) := by
  induction w with
  | nil => rfl
  | cons c w ih =>
    obtain ⟨hgoes, hw⟩ := not_closing_cons hw
    have hhead : (w ++ '*' :: '/' :: u).head? = some '/' → w.head? = some '/' := by
      cases w with
      | nil => exact fun h => nomatch h
      | cons d w => exact id
    have hgoes' : ¬(c = '*' && (w ++ '*' :: '/' :: u).head? = some '/') = true := by
      simp only [Bool.and_eq_true, decide_eq_true_eq] at hgoes ⊢
      exact fun h => hgoes (h.imp_right hhead)
    rw [List.cons_append, commentRest, if_neg hgoes', ih hw]
    rfl

theorem commentRest_open (hw : ¬['*', '/'] <:+: w) : commentRest w = (w, false) := by
  induction w with
  | nil => rfl
  | cons c w ih =>
    obtain ⟨hgoes, hw⟩ := not_closing_cons hw
    rw [commentRest, if_neg hgoes, ih hw]

theorem not_closing_of_cons (hgoes : ¬(c = '*' && w.head? = some '/') = true)
    (hw : ¬['*', '/'] <:+: w) : ¬['*', '/'] <:+: c :: w := by
  rintro hin
  rcases List.infix_cons_iff.mp hin with ⟨v, hv⟩ | hin
  · obtain ⟨rfl, hw'⟩ := List.cons.inj hv
    rw [← hw'] at hgoes
    exact hgoes rfl
  · exact hw hin

theorem commentRest_form (cs : Text) :
    (∃ w u, ¬['*', '/'] <:+: w ∧ cs = w ++ '*' :: '/' :: u) ∨ ¬['*', '/'] <:+: cs := by
  induction cs with
  | nil => exact .inr (by decide)
  | cons c cs ih =>
    by_cases hcloses : (c = '*' && cs.head? = some '/') = true
    · obtain ⟨hc, hhead⟩ := Bool.and_eq_true_iff.mp hcloses
      obtain ⟨u, rfl⟩ := List.head?_eq_some_iff.mp (of_decide_eq_true hhead)
      exact .inl ⟨[], u, by decide, by rw [of_decide_eq_true hc]; rfl⟩
    · rcases ih with ⟨w, u, hw, rfl⟩ | hw
      · refine .inl ⟨c :: w, u, not_closing_of_cons ?_ hw, rfl⟩
        simp only [Bool.and_eq_true, decide_eq_true_eq] at hcloses ⊢
        refine fun h => hcloses (h.imp_right fun hhead => ?_)
        obtain ⟨v, rfl⟩ := List.head?_eq_some_iff.mp hhead
        rfl
      · exact .inr (not_closing_of_cons hcloses hw)

theorem spelling?_of_keyword? (h : Kind.keyword? w = some k) : k.spelling? = some w := by
  have hspelling := List.find?_some h
  exact of_decide_eq_true hspelling

theorem spelling?_of_symbol? (h : symbol? w = some k) : k.spelling? = some w := by
  have hspelling := List.find?_some h
  exact of_decide_eq_true hspelling

theorem exists_word_of_keyword (hk : k.category = .keyword) (hw : k.spelling? = some w) :
    ∃ d v, w = d :: v ∧ StartsWord d ∧ ∀ e ∈ v, ContinuesWord e := by
  have hshape : ∀ k ∈ Kind.keywords, (k.spelling?.any fun w =>
      w.head?.any Char.isAlpha && w.tail.all isWordCharacter) = true := by
    decide
  have hmem : k ∈ Kind.keywords := List.mem_filter.mpr ⟨k.mem_all, decide_eq_true hk⟩
  have hword := hshape k hmem
  rw [hw, Option.any_some, Bool.and_eq_true] at hword
  obtain ⟨hhead, htail⟩ := hword
  cases w with
  | nil => cases hhead
  | cons d v =>
    exact ⟨d, v, rfl, .inl hhead, fun e he =>
      (isWordCharacter_iff e).mp (List.all_eq_true.mp htail e he)⟩

theorem keyword?_of_spelling? (hk : k.category = .keyword) (hw : k.spelling? = some w) :
    Kind.keyword? w = some k := by
  have hsame : ∀ k ∈ Kind.keywords, (k.spelling?.bind Kind.keyword?) = some k := by decide
  have hmem : k ∈ Kind.keywords := List.mem_filter.mpr ⟨k.mem_all, decide_eq_true hk⟩
  have hfound := hsame k hmem
  rwa [hw, Option.bind_some] at hfound

theorem keyword?_eq_none (h : ∀ k : Kind, k.category = .keyword → k.spelling? ≠ some w) :
    Kind.keyword? w = none := by
  refine List.find?_eq_none.mpr fun k hk hspelling => ?_
  have hcategory := (List.mem_filter.mp hk).2
  exact h k (of_decide_eq_true hcategory) (of_decide_eq_true hspelling)

theorem mem_symbols : k ∈ symbols ↔ IsSymbol k := by
  simp [symbols, IsSymbol, Kind.mem_all]

theorem symbol?_of_spelling? (hk : IsSymbol k) (hw : k.spelling? = some w) :
    symbol? w = some k := by
  have hsame : ∀ k ∈ symbols, (k.spelling?.bind symbol?) = some k := by decide
  have hmem := mem_symbols.mpr hk
  have hfound := hsame k hmem
  rwa [hw, Option.bind_some] at hfound

theorem isSymbol_of_symbol? (h : symbol? w = some k) : IsSymbol k :=
  mem_symbols.mp (List.mem_of_find?_eq_some h)

theorem symbol?_eq_none (h : ∀ k : Kind, IsSymbol k → k.spelling? ≠ some w) :
    symbol? w = none := by
  refine List.find?_eq_none.mpr fun k hk hspelling => ?_
  exact h k (mem_symbols.mp hk) (of_decide_eq_true hspelling)

theorem exists_character_of_symbol (hk : IsSymbol k) (hw : k.spelling? = some w) :
    w = ['/'] ∨ ∃ d v, w = d :: v ∧ v.length ≤ 1 ∧
      (CharClass.of d = .operator ∨ CharClass.of d = .punctuation) := by
  have hshape : ∀ k ∈ symbols, ∀ w ∈ k.spelling?, w = ['/'] ∨ w.tail.length ≤ 1 ∧
      w.head?.any fun d => CharClass.of d = .operator || CharClass.of d = .punctuation := by
    decide
  refine (hshape k (mem_symbols.mpr hk) w hw).imp_right fun ⟨hlength, hhead⟩ => ?_
  cases w with
  | nil => cases hhead
  | cons d v => exact ⟨d, v, rfl, hlength, by simpa using hhead⟩

end Lexeme

end Reparse
