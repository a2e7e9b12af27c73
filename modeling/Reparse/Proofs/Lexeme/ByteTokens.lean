import Reparse.Proofs.Lexeme.ByteLoops

/-!
# Tokens by bytes

From an offset where a character starts, the machine on bytes finds the first lexeme of the text
behind it.
-/

namespace Reparse

namespace ByteScanner

variable {t b w : Text} {pos fuel : Nat} {c : Char}

theorem ok_bind {α β : Type} (x : α) (f : α → Except Fault β) : (Except.ok x >>= f) = f x := rfl

def Found.ofLexeme (pos : Nat) (l : Lexeme) : Found := ⟨l.kind, l.fault, pos + l.size⟩

theorem whitespace_eq {cs : Text} (h : Stands t pos (c :: cs)) (hc : Lexeme.IsBlank c)
    (hfuel : Text.size (c :: cs) < fuel) :
    whitespace t fuel pos = .ok (.ofLexeme pos (Lexeme.leading c cs)) := by
  have hsmall : c.toNat < 128 := by rcases hc with rfl | rfl | rfl <;> decide
  have hsize := Text.utf8Size_ascii hsmall
  have hbehind := h.tail.peek_eq_iff (d := '\n') (by decide) (by decide)
  rw [hsize] at hbehind
  have hfeed : peek t pos 1 = '\n' ↔ cs.head? = some '\n' := hbehind
  rw [whitespace, h.peek_ascii hsmall]
  by_cases hbreak : c = '\r' ∧ cs.head? = some '\n'
  · obtain ⟨rfl, hhead⟩ := hbreak
    have hlexeme : Lexeme.leading '\r' cs = ⟨.newline, '\r', ['\n'], none⟩ := by
      have hclass : CharClass.of '\r' = .blank := rfl
      rw [Lexeme.leading, hclass]
      exact if_pos (by simp [hhead])
    rw [if_pos ⟨rfl, hfeed.mpr hhead⟩, hlexeme]
    rfl
  · have hblanks : Lexeme.blanks (c :: cs) = c :: Lexeme.blanks cs := by
      rw [Lexeme.blanks]
      apply if_pos
      rcases hc with rfl | rfl | rfl
      · rfl
      · rfl
      · simpa using hbreak
    rw [if_neg fun hboth => hbreak ⟨hboth.1, hfeed.mp hboth.2⟩, advance_blanks h hfuel, hblanks,
      Lexeme.leading_of_isBlank hc hbreak]
    rfl

theorem identifier_eq {cs : Text} (h : Stands t pos (c :: cs)) (hc : Lexeme.StartsWord c)
    (hfuel : Text.size (c :: cs) < fuel) :
    identifier t fuel pos = .ok (.ofLexeme pos (Lexeme.word c cs)) := by
  have hword : Lexeme.wordCharacters (c :: cs) = c :: Lexeme.wordCharacters cs :=
    List.takeWhile_cons_of_pos ((Lexeme.isWordCharacter_iff c).mpr (.inl hc))
  have hbegins := List.prefix_iff_eq_append.mp (Lexeme.wordCharacters_begins (c :: cs))
  rw [hword] at hbegins
  have htext := Stands.textBetween_eq (hbegins.symm ▸ h)
  rw [identifier, advance_word h hfuel, ok_bind, hword, htext]
  rfl

def stopOf (pos : Nat) (w : Text) : Option Nat :=
  if w.isEmpty then none else some (pos + Text.size w)

theorem getD_stopOf (pos : Nat) (w : Text) : (stopOf pos w).getD pos = pos + Text.size w := by
  cases w with
  | nil => rfl
  | cons c cs => rfl

theorem isNone_stopOf (pos : Nat) (w : Text) : (stopOf pos w).isNone = w.isEmpty := by
  cases w with
  | nil => rfl
  | cons c cs => rfl

theorem isEmpty_digits (b : Text) : (Lexeme.digits b).isEmpty = !b.head?.any Char.isDigit := by
  cases b with
  | nil => rfl
  | cons c cs =>
    cases hc : c.isDigit with
    | true => simp [Lexeme.digits, hc]
    | false => simp [Lexeme.digits, hc]

theorem fraction_eq (h : Stands t pos b) (hfuel : Text.size b < fuel) :
    fraction t fuel pos = .ok (stopOf pos (Lexeme.fraction b)) := by
  have hpoint := h.peek_eq_iff (d := '.') (by decide) (by decide)
  cases b with
  | nil =>
    rw [fraction, if_neg fun hboth => nomatch hpoint.mp hboth.1]
    rfl
  | cons c cs =>
    by_cases hc : c = '.'
    · subst hc
      have hbehind : Stands t (pos + 1) cs := h.tail
      have hdigit : (peek t pos 1).isDigit = cs.head?.any Char.isDigit := hbehind.isDigit_peek
      have hless : Text.size cs < fuel := Nat.lt_of_le_of_lt (Nat.le_add_left _ _) hfuel
      rw [fraction, hdigit, Lexeme.fraction, isEmpty_digits]
      cases hany : cs.head?.any Char.isDigit with
      | false =>
        rw [if_neg (by simp)]
        rfl
      | true =>
        rw [if_pos ⟨hpoint.mpr rfl, rfl⟩, advance_digits hbehind hless, Nat.add_assoc]
        rfl
    · rw [fraction, if_neg fun hboth => hc (Option.some.inj (hpoint.mp hboth.1)),
        Lexeme.fraction_of_ne hc]
      rfl

theorem size_sign (h : Stands t pos b) :
    (if peek t pos 0 = '+' ∨ peek t pos 0 = '-' then 1 else 0) =
      Text.size (Lexeme.sign b) := by
  have hplus := h.peek_eq_iff (d := '+') (by decide) (by decide)
  have hminus := h.peek_eq_iff (d := '-') (by decide) (by decide)
  cases b with
  | nil => exact if_neg (by simp [hplus, hminus])
  | cons c cs =>
    simp only [hplus, hminus, List.head?_cons, Option.some.injEq]
    by_cases hc : c = '+' ∨ c = '-'
    · have hsign : Lexeme.sign (c :: cs) = [c] := by
        rw [Lexeme.sign, if_pos (by simpa using hc)]
      rw [if_pos hc, hsign]
      rcases hc with rfl | rfl <;> rfl
    · have hsign : Lexeme.sign (c :: cs) = [] := by
        rw [Lexeme.sign, if_neg (by simpa using hc)]
      rw [if_neg hc, hsign]
      rfl

theorem exponent_eq (h : Stands t pos b) (hfuel : Text.size b < fuel) :
    exponent t fuel pos = .ok (stopOf pos (Lexeme.exponent b)) := by
  have hlower := h.peek_eq_iff (d := 'e') (by decide) (by decide)
  have hupper := h.peek_eq_iff (d := 'E') (by decide) (by decide)
  simp only [exponent, hlower, hupper]
  cases b with
  | nil =>
    rw [if_neg (by simp)]
    rfl
  | cons c cs =>
    simp only [List.head?_cons, Option.some.injEq]
    by_cases hc : c = 'e' ∨ c = 'E'
    · have hsize : c.utf8Size = 1 := by rcases hc with rfl | rfl <;> rfl
      have htail := h.tail
      rw [hsize] at htail
      have hsign : (if peek t pos 1 = '+' ∨ peek t pos 1 = '-' then 1 else 0) =
          Text.size (Lexeme.sign cs) := size_sign htail
      have hbehind := htail.drop (Lexeme.sign_begins cs)
      have hdigit : (peek t pos (1 + Text.size (Lexeme.sign cs))).isDigit =
          (cs.drop (Lexeme.sign cs).length).head?.any Char.isDigit := by
        rw [peek_succ]
        exact hbehind.isDigit_peek
      have hless : Text.size (cs.drop (Lexeme.sign cs).length) < fuel := by
        have hwhole := h.size_eq
        have hrest := hbehind.size_eq
        omega
      have hmark : (decide (c = 'e') || decide (c = 'E')) = true := by simpa using hc
      rw [hsign, hdigit, Lexeme.exponent, if_pos hmark]
      simp only [isEmpty_digits]
      cases hany : (cs.drop (Lexeme.sign cs).length).head?.any Char.isDigit with
      | false =>
        rw [if_neg (by simp)]
        rfl
      | true =>
        have hstop : pos + 1 + Text.size (Lexeme.sign cs) +
            Text.size (Lexeme.digits (cs.drop (Lexeme.sign cs).length)) =
            pos + Text.size (c :: Lexeme.sign cs ++
              Lexeme.digits (cs.drop (Lexeme.sign cs).length)) := by
          rw [List.cons_append, Text.size_cons, Text.size_append, hsize]
          omega
        rw [if_pos ⟨hc, rfl⟩, advance_digits hbehind hless, hstop]
        rfl
    · have hmark : ¬(decide (c = 'e') || decide (c = 'E')) = true := by simpa using hc
      rw [if_neg fun hboth => hc hboth.1, Lexeme.exponent, if_neg hmark]
      rfl

theorem number_eq {cs : Text} (h : Stands t pos (c :: cs)) (hc : c.isDigit = true)
    (hfuel : Text.size (c :: cs) < fuel) :
    number t fuel pos = .ok (.ofLexeme pos (Lexeme.number c cs)) := by
  have hsize := Text.utf8Size_ascii ((Lexeme.toNat_of_isDigit hc).2.trans (by decide))
  have hdigits : Lexeme.digits (c :: cs) = c :: Lexeme.digits cs := List.takeWhile_cons_of_pos hc
  have hbegins : Lexeme.mantissa cs <+: cs :=
    Lexeme.prefix_append_of_drop (Lexeme.digits_begins cs) (Lexeme.fraction_begins _)
  have hless : ∀ {w : Text}, w <+: cs → Text.size (cs.drop w.length) < fuel := fun hw => by
    have hwhole := h.size_eq
    have hrest := (h.tail.drop hw).size_eq
    omega
  -- The parts of the number end where the next part is looked for.
  have hfraction := fraction_eq (h.tail.drop (Lexeme.digits_begins cs))
    (hless (Lexeme.digits_begins cs))
  have hexponent := exponent_eq (h.tail.drop hbegins) (hless hbegins)
  have hglued := advance_word (h.tail.drop (Lexeme.literal_begins cs))
    (hless (Lexeme.literal_begins cs))
  have hmantissa : pos + c.utf8Size + Text.size (Lexeme.digits cs) +
      Text.size (Lexeme.fraction (cs.drop (Lexeme.digits cs).length)) =
      pos + c.utf8Size + Text.size (Lexeme.mantissa cs) := by
    rw [Lexeme.mantissa, Text.size_append, Nat.add_assoc _ (Text.size (Lexeme.digits cs))]
  have hliteral : pos + c.utf8Size + Text.size (Lexeme.mantissa cs) +
      Text.size (Lexeme.exponent (cs.drop (Lexeme.mantissa cs).length)) =
      pos + c.utf8Size + Text.size (Lexeme.literal cs) := by
    rw [Lexeme.literal, Text.size_append, Nat.add_assoc _ (Text.size (Lexeme.mantissa cs))]
  simp only [number, advance_digits h hfuel, ok_bind, hdigits, Text.size_cons, ← Nat.add_assoc,
    hfraction, getD_stopOf, hmantissa, hexponent, hliteral, hglued, isNone_stopOf,
    Lexeme.number_eq, Found.ofLexeme, Except.ok.injEq, Found.mk.injEq]
  refine ⟨rfl, ?_, ?_⟩
  · change (if _ < _ + Text.size (Lexeme.glued cs) then _ else _) = _
    cases hnil : Lexeme.glued cs with
    | nil => exact if_neg (Nat.lt_irrefl _)
    | cons d ds =>
      have hpos := Char.utf8Size_pos d
      exact if_pos (Nat.lt_add_of_pos_right (by rw [Text.size_cons]; omega))
  · have htext : Lexeme.size ⟨Lexeme.literalKind cs, c, Lexeme.literal cs ++ Lexeme.glued cs,
        if (Lexeme.glued cs).isEmpty then none else some .malformedNumber⟩ =
        c.utf8Size + Text.size (Lexeme.literal cs ++ Lexeme.glued cs) := rfl
    rw [htext, Text.size_append, Lexeme.glued, Nat.add_assoc, Nat.add_assoc]

theorem toNat_of_stopsString (h : stopsString c = true) : c.toNat < 128 := by
  simp only [stopsString, Bool.or_eq_true, decide_eq_true_eq] at h
  rcases h with (rfl | rfl) | rfl <;> decide

theorem string_passes {cs : Text} (h : Stands t pos (c :: cs)) (hc : stopsString c = false)
    (fuel : Nat) : string t fuel pos = string t fuel (pos + c.utf8Size) := by
  cases fuel with
  | zero => rfl
  | succ fuel =>
    rw [string, string, h.bytesFrom_eq, h.tail.bytesFrom_eq, ok_bind, ok_bind,
      Text.findIdx?_octets_cons (fun _ => toNat_of_stopsString) hc]
    cases hfind : (Text.octets cs).findIdx? stopsString with
    | none => rfl
    | some n =>
      have hplace : pos + (n + c.utf8Size) = pos + c.utf8Size + n := by omega
      simp only [Option.map_some, hplace]

theorem string_stops {cs : Text} (h : Stands t pos (c :: cs)) (hc : stopsString c = true)
    (fuel : Nat) : string t (fuel + 1) pos =
      if c = '"' then .ok ⟨.string, none, pos + 1⟩
      else if c = '\\' then
        match cs.head? with
        | some d => string t fuel (if d = '\n' then pos + 1 else pos + 1 + d.utf8Size)
        | none => string t fuel (pos + 1)
      else .ok ⟨.string, some .openString, pos⟩ := by
  have hsmall := toNat_of_stopsString hc
  have htail := h.tail
  rw [Text.utf8Size_ascii hsmall] at htail
  rw [string, h.bytesFrom_eq, ok_bind, Text.findIdx?_octets_hit (fun _ => toNat_of_stopsString) hc]
  cases cs with
  | nil => simp only [Nat.add_zero, h.peek_ascii hsmall, htail.character?_eq, List.head?_nil]
  | cons d ds => simp only [Nat.add_zero, h.peek_ascii hsmall, htail.character?_eq, List.head?_cons]

theorem string_nil (h : Stands t pos []) (fuel : Nat) :
    string t (fuel + 1) pos = .ok ⟨.string, some .openString, pos⟩ := by
  have hend : pos = Text.size t := h.size_eq
  rw [string, h.bytesFrom_eq, hend]
  rfl

theorem string_eq {cs : Text} (h : Stands t pos cs) (hfuel : Text.size cs < fuel) :
    string t fuel pos = .ok ⟨.string, if (Lexeme.stringRest cs).2 then none else some .openString,
      pos + Text.size (Lexeme.stringRest cs).1⟩ := by
  induction cs using Lexeme.stringRest.induct generalizing pos fuel with
  | case1 =>
    obtain ⟨fuel, rfl⟩ := Nat.exists_eq_add_one_of_ne_zero (Nat.ne_zero_of_lt hfuel)
    exact string_nil h fuel
  | case2 cs =>
    obtain ⟨fuel, rfl⟩ := Nat.exists_eq_add_one_of_ne_zero (Nat.ne_zero_of_lt hfuel)
    rw [string_stops h rfl, Lexeme.stringRest_quote]
    rfl
  | case3 cs =>
    obtain ⟨fuel, rfl⟩ := Nat.exists_eq_add_one_of_ne_zero (Nat.ne_zero_of_lt hfuel)
    rw [string_stops h rfl, Lexeme.stringRest_feed]
    rfl
  | case4 =>
    obtain ⟨fuel, rfl⟩ : ∃ n, fuel = n + 2 := ⟨fuel - 2, by
      have hone : Text.size ['\\'] = 1 := rfl
      omega⟩
    rw [string_stops h rfl, Lexeme.stringRest_escape_nil]
    exact string_nil h.tail fuel
  | case5 ds =>
    obtain ⟨fuel, rfl⟩ : ∃ n, fuel = n + 2 := ⟨fuel - 2, by
      have hone : Text.size ('\\' :: '\n' :: ds) = 1 + (1 + Text.size ds) := rfl
      omega⟩
    have hfeed : string t (fuel + 1) (pos + 1) = .ok ⟨.string, some .openString, pos + 1⟩ :=
      string_stops h.tail rfl fuel
    rw [string_stops h rfl, Lexeme.stringRest_escape_feed]
    exact hfeed
  | case6 d ds hd rest closed hrest _ _ ih =>
    have hsize : Text.size ('\\' :: d :: ds) = 1 + (d.utf8Size + Text.size ds) := rfl
    obtain ⟨fuel, rfl⟩ := Nat.exists_eq_add_one_of_ne_zero (Nat.ne_zero_of_lt hfuel)
    have hbehind : string t fuel (pos + 1 + d.utf8Size) = _ := ih h.tail.tail (by omega)
    have hgoes : string t (fuel + 1) pos = string t fuel (pos + 1 + d.utf8Size) := by
      rw [string_stops h rfl]
      exact congrArg (string t fuel) (if_neg hd)
    rw [hgoes, hbehind, Lexeme.stringRest_escape hd, Nat.add_assoc, Nat.add_assoc]
    rfl
  | case7 c cs hquote hfeed hescape rest closed hrest ih =>
    have hpasses : stopsString c = false := by simp [stopsString, hquote, hfeed, hescape]
    have hbehind := ih h.tail (Nat.lt_of_le_of_lt (Nat.le_add_left _ _) hfuel)
    rw [string_passes h hpasses, hbehind, Lexeme.stringRest_cons hquote hfeed hescape,
      Nat.add_assoc]
    rfl

theorem find_passes {ds : List Char} (hds : ∀ e ∈ ds, e ≠ '*') (bs : List Char) :
    find ['*', '/'] (ds ++ bs) = (find ['*', '/'] bs).map (· + ds.length) := by
  induction ds with
  | nil => simp
  | cons d ds ih =>
    obtain ⟨hd, hds⟩ := List.forall_mem_cons.mp hds
    have hmiss : ¬['*', '/'].isPrefixOf (d :: ds ++ bs) = true := by
      simp [List.isPrefixOf, Ne.symm hd]
    rw [List.cons_append] at hmiss ⊢
    rw [find, if_neg hmiss, ih hds, Option.map_map]
    rfl

theorem find_octets_cons {cs : Text} (h : ¬(c = '*' ∧ cs.head? = some '/')) :
    find ['*', '/'] (Text.octets (c :: cs)) =
      (find ['*', '/'] (Text.octets cs)).map (· + c.utf8Size) := by
  by_cases hsmall : c.toNat < 128
  · have hmiss : ¬['*', '/'].isPrefixOf (c :: Text.octets cs) = true := by
      intro hprefix
      obtain ⟨bs, hbs⟩ := List.isPrefixOf_iff_prefix.mp hprefix
      obtain ⟨hc, hrest⟩ := List.cons.inj hbs
      have hpeek : peek cs 0 0 = '/' := by
        rw [peek, ← hrest]
        rfl
      exact h ⟨hc.symm, ((Stands.start cs).peek_eq_iff (by decide) (by decide)).mp hpeek⟩
    rw [Text.octets_ascii hsmall, find, if_neg hmiss, Text.utf8Size_ascii hsmall]
  · obtain ⟨d, ds, hds, hlength, hlarge⟩ := Text.octets_foreign (Nat.le_of_not_lt hsmall) cs
    have hother : ∀ e ∈ d :: ds, e ≠ '*' := by
      rintro e he rfl
      exact absurd (hlarge _ he) (by decide)
    rw [hds, find_passes hother, hlength]

theorem find_octets (cs : Text) :
    (∃ n, find ['*', '/'] (Text.octets cs) = some n ∧ (Lexeme.commentRest cs).2 = true ∧
      Text.size (Lexeme.commentRest cs).1 = n + 2) ∨
    (find ['*', '/'] (Text.octets cs) = none ∧ Lexeme.commentRest cs = (cs, false)) := by
  induction cs with
  | nil => exact .inr ⟨rfl, rfl⟩
  | cons c cs ih =>
    by_cases hcloses : c = '*' ∧ cs.head? = some '/'
    · obtain ⟨rfl, hhead⟩ := hcloses
      obtain ⟨ds, rfl⟩ := List.head?_eq_some_iff.mp hhead
      exact .inl ⟨0, rfl, rfl, rfl⟩
    · have hgoes : ¬(decide (c = '*') && decide (cs.head? = some '/')) = true := by
        simpa using hcloses
      rw [find_octets_cons hcloses, Lexeme.commentRest, if_neg hgoes]
      rcases ih with ⟨n, hfind, hclosed, hsize⟩ | ⟨hfind, hopen⟩
      · refine .inl ⟨n + c.utf8Size, by rw [hfind]; rfl, hclosed, ?_⟩
        rw [Text.size_cons, hsize]
        omega
      · exact .inr ⟨by rw [hfind]; rfl, by rw [hopen]⟩

theorem slash_line {ds : Text} (h : Stands t pos ('/' :: '/' :: ds)) :
    slash t pos = .ok (.ofLexeme pos (Lexeme.slash '/' ('/' :: ds))) := by
  have hpeek : peek t pos 1 = '/' := (h.tail.peek_eq_iff (by decide) (by decide)).mpr rfl
  have hascii : ∀ c, decide (c = '\n') = true → c.toNat < 128 := fun c hc => by
    rw [of_decide_eq_true hc]
    decide
  have hwhole : (('/' :: '/' :: ds).takeWhile fun c => !decide (c = '\n')) =
      '/' :: ('/' :: ds).takeWhile fun c => decide (c ≠ '\n') := by
    simp
  rw [slash, if_pos hpeek, h.bytesFrom_eq, ok_bind, Text.findIdx?_octets hascii, hwhole]
  rfl

theorem slash_block {ds : Text} (h : Stands t pos ('/' :: '*' :: ds)) :
    slash t pos = .ok (.ofLexeme pos (Lexeme.slash '/' ('*' :: ds))) := by
  have hpeek : peek t pos 1 = '*' := (h.tail.peek_eq_iff (by decide) (by decide)).mpr rfl
  have hother : peek t pos 1 ≠ '/' := by
    rw [hpeek]
    decide
  have hbehind : Stands t (pos + 2) ds := h.tail.tail
  have hlexeme : Found.ofLexeme pos (Lexeme.slash '/' ('*' :: ds)) =
      ⟨.comment, if (Lexeme.commentRest ds).2 then none else some .openComment,
        pos + (1 + (1 + Text.size (Lexeme.commentRest ds).1))⟩ := rfl
  rw [slash, if_neg hother, if_pos hpeek, hbehind.bytesFrom_eq, ok_bind, hlexeme]
  rcases find_octets ds with ⟨n, hfind, hclosed, hsize⟩ | ⟨hfind, hopen⟩
  · have hstop : pos + 2 + (n + 2) = pos + (1 + (1 + (n + 2))) := by omega
    rw [hfind, hclosed, hsize, ← hstop]
    rfl
  · have hstop : Text.size t = pos + (1 + (1 + Text.size ds)) := by
      have hend := hbehind.size_eq
      omega
    rw [hfind, hopen, ← hstop]
    rfl

theorem slash_eq {cs : Text} (h : Stands t pos ('/' :: cs)) :
    slash t pos = .ok (.ofLexeme pos (Lexeme.slash '/' cs)) := by
  by_cases hline : cs.head? = some '/'
  · obtain ⟨ds, rfl⟩ := List.head?_eq_some_iff.mp hline
    exact slash_line h
  · by_cases hblock : cs.head? = some '*'
    · obtain ⟨ds, rfl⟩ := List.head?_eq_some_iff.mp hblock
      exact slash_block h
    · have hslash : peek t pos 1 ≠ '/' := fun hpeek =>
        hline ((h.tail.peek_eq_iff (by decide) (by decide)).mp hpeek)
      have hstar : peek t pos 1 ≠ '*' := fun hpeek =>
        hblock ((h.tail.peek_eq_iff (by decide) (by decide)).mp hpeek)
      have hsymbol : Lexeme.slash '/' cs = Lexeme.symbol '/' [] := by
        cases cs with
        | nil => rfl
        | cons d ds =>
          exact Lexeme.slash_of_ne (fun hd => hline (congrArg some hd))
            (fun hd => hblock (congrArg some hd)) ds
      rw [slash, if_neg hslash, if_neg hstar, hsymbol]
      rfl

def pairs : List (Char × Char) :=
  [('=', '='), ('!', '='), ('<', '='), ('>', '='), ('&', '&'), ('|', '|'), ('-', '>')]

theorem symbol?_of_not_pair {d : Char} (h : (c, d) ∉ pairs) : Lexeme.symbol? [c, d] = none := by
  apply Lexeme.symbol?_eq_none
  intro k hk hspelling
  have hall : ∀ k ∈ Lexeme.symbols, ∀ w ∈ k.spelling?, w.length = 2 →
      (w.headD ' ', w.getLastD ' ') ∈ pairs := by
    decide
  exact h (hall k (Lexeme.mem_symbols.mpr hk) _ hspelling rfl)

theorem symbol_single {k : Kind} (hpairs : ∀ d, (c, d) ∉ pairs) (hk : Lexeme.symbol? [c] = some k)
    (cs : Text) : Lexeme.symbol c cs = ⟨k, c, [], none⟩ := by
  cases cs with
  | nil => rw [Lexeme.symbol, List.take_nil, hk]
  | cons d ds =>
    have hnone : Lexeme.symbol? (c :: (d :: ds).take 1) = none := symbol?_of_not_pair (hpairs d)
    rw [Lexeme.symbol, hnone, hk]

theorem symbol_double {second : Char} {double : Kind}
    (honly : ∀ d, (c, d) ∈ pairs → d = second)
    (hdouble : Lexeme.symbol? [c, second] = some double) (cs : Text) :
    Lexeme.symbol c cs =
      if cs.head? = some second then ⟨double, c, [second], none⟩ else Lexeme.symbol c [] := by
  cases cs with
  | nil => rfl
  | cons d ds =>
    by_cases hd : d = second
    · subst hd
      have hlong : Lexeme.symbol? (c :: (d :: ds).take 1) = some double := hdouble
      rw [Lexeme.symbol, hlong]
      exact (if_pos rfl).symm
    · have hnone : Lexeme.symbol? (c :: (d :: ds).take 1) = none :=
        symbol?_of_not_pair fun hmem => hd (honly d hmem)
      have hother : ¬(d :: ds).head? = some second := fun hhead => hd (Option.some.inj hhead)
      rw [if_neg hother, Lexeme.symbol, hnone, Lexeme.symbol, List.take_nil]
      cases Lexeme.symbol? [c] with
      | none => rfl
      | some k => rfl

theorem oneOrTwo_eq {cs : Text} {second : Char} {double single : Kind}
    (h : Stands t pos (c :: cs)) (hc : c.utf8Size = 1)
    (hsecond : second.utf8Size = 1 ∧ second.toNat < 128 ∧ second ≠ '\x00')
    (honly : ∀ d, (c, d) ∈ pairs → d = second)
    (hdouble : Lexeme.symbol? [c, second] = some double)
    (hsingle : Lexeme.symbol? [c] = some single) :
    oneOrTwo t second double single pos = .ofLexeme pos (Lexeme.symbol c cs) := by
  have htail := h.tail
  rw [hc] at htail
  have hpeek : peek t pos 1 = second ↔ cs.head? = some second :=
    htail.peek_eq_iff hsecond.2.1 hsecond.2.2
  have halone : Lexeme.symbol c [] = ⟨single, c, [], none⟩ := by
    rw [Lexeme.symbol, List.take_nil, hsingle]
  rw [oneOrTwo, symbol_double honly hdouble, halone]
  by_cases hhead : cs.head? = some second
  · have hsize : Text.size [c, second] = 2 := by
      rw [Text.size_cons, Text.size_cons, hc, hsecond.1]
      rfl
    rw [if_pos hhead, if_pos (hpeek.mpr hhead), Found.ofLexeme, Lexeme.size, Lexeme.text, hsize]
  · have hsize : Text.size [c] = 1 := by
      rw [Text.size_cons, hc]
      rfl
    rw [if_neg hhead, if_neg (mt hpeek.mp hhead), Found.ofLexeme, Lexeme.size, Lexeme.text, hsize]

theorem operator_eq {cs : Text} (h : Stands t pos (c :: cs))
    (hc : c ∈ ['+', '-', '*', '%', '!', '=', '<', '>', '&', '|']) :
    operator t c pos = .ofLexeme pos (Lexeme.symbol c cs) := by
  simp only [List.mem_cons, List.not_mem_nil, or_false] at hc
  rcases hc with rfl | rfl | rfl | rfl | rfl | rfl | rfl | rfl | rfl | rfl
  · rw [symbol_single (k := .plus) (by simp [pairs]) (by decide)]
    rfl
  · exact oneOrTwo_eq h rfl (by decide) (by simp [pairs]) (by decide) (by decide)
  · rw [symbol_single (k := .star) (by simp [pairs]) (by decide)]
    rfl
  · rw [symbol_single (k := .percent) (by simp [pairs]) (by decide)]
    rfl
  · exact oneOrTwo_eq h rfl (by decide) (by simp [pairs]) (by decide) (by decide)
  · exact oneOrTwo_eq h rfl (by decide) (by simp [pairs]) (by decide) (by decide)
  · exact oneOrTwo_eq h rfl (by decide) (by simp [pairs]) (by decide) (by decide)
  · exact oneOrTwo_eq h rfl (by decide) (by simp [pairs]) (by decide) (by decide)
  · -- A single ampersand is no symbol.
    have hpeek : peek t pos 1 = '&' ↔ cs.head? = some '&' :=
      h.tail.peek_eq_iff (by decide) (by decide)
    have hdouble : Lexeme.symbol '&' cs =
        if cs.head? = some '&' then ⟨.both, '&', ['&'], none⟩ else Lexeme.symbol '&' [] :=
      symbol_double (by simp [pairs]) (by decide) cs
    rw [hdouble]
    by_cases hhead : cs.head? = some '&'
    · rw [if_pos hhead]
      exact if_pos (hpeek.mpr hhead)
    · rw [if_neg hhead]
      exact if_neg (mt hpeek.mp hhead)
  · exact oneOrTwo_eq h rfl (by decide) (by simp [pairs]) (by decide) (by decide)

theorem punctuation_eq (cs : Text)
    (hc : c ∈ ['(', ')', '{', '}', '[', ']', ',', ';', ':', '.']) :
    punctuation c pos = .ofLexeme pos (Lexeme.symbol c cs) := by
  have hpairs : ∀ d, (c, d) ∉ pairs := by
    simp only [List.mem_cons, List.not_mem_nil, or_false] at hc
    rcases hc with rfl | rfl | rfl | rfl | rfl | rfl | rfl | rfl | rfl | rfl <;> simp [pairs]
  have hkind : ∃ k, Lexeme.symbol? [c] = some k ∧ punctuation c pos = ⟨k, none, pos + 1⟩ ∧
      c.utf8Size = 1 := by
    simp only [List.mem_cons, List.not_mem_nil, or_false] at hc
    rcases hc with rfl | rfl | rfl | rfl | rfl | rfl | rfl | rfl | rfl | rfl <;>
      exact ⟨_, rfl, rfl, rfl⟩
  obtain ⟨k, hk, hfound, hsize⟩ := hkind
  rw [hfound, symbol_single hpairs hk, Found.ofLexeme, Lexeme.size, Lexeme.text, Text.size_cons,
    hsize]
  rfl

theorem foreign_eq {cs : Text} (h : Stands t pos (c :: cs)) (hc : 128 ≤ c.toNat)
    (hfuel : Text.size (c :: cs) < fuel) :
    foreign t fuel pos = .ok (.ofLexeme pos (Lexeme.leading c cs)) := by
  have hclass : CharClass.of c = .invalid := by
    by_contra hclass
    have hsmall := Lexeme.toNat_of_class hclass
    omega
  rw [foreign, h.character?_eq, Lexeme.leading, hclass]
  change (if Text.isForeignLetter c then _ else _) = _
  by_cases hletter : Text.isForeignLetter c = true
  · rw [if_pos hletter, if_pos hletter, identifier_eq h (.inr (.inr hletter)) hfuel]
  · rw [if_neg hletter, if_neg hletter]
    rfl

theorem found_eq {cs : Text} (h : Stands t pos (c :: cs)) (hfuel : Text.size (c :: cs) < fuel) :
    found t fuel (peek t pos 0) pos = .ok (.ofLexeme pos (Lexeme.leading c cs)) := by
  by_cases hc : c.toNat < 128
  · have hspec := Lexeme.charClass_spec c
    have hsize := Text.utf8Size_ascii hc
    rw [found, h.peek_ascii hc, if_pos hc]
    cases hclass : CharClass.of c with
    | blank =>
      rw [hclass] at hspec
      exact whitespace_eq h hspec hfuel
    | lineFeed =>
      rw [Lexeme.leading, hclass, Found.ofLexeme, Lexeme.size, Lexeme.text, Text.size_cons, hsize]
      rfl
    | digit =>
      rw [hclass] at hspec
      rw [Lexeme.leading_of_isDigit hspec]
      exact number_eq h hspec hfuel
    | letter =>
      rw [hclass] at hspec
      have hstarts : Lexeme.StartsWord c := hspec.imp_right .inl
      rw [Lexeme.leading_of_startsWord hstarts]
      exact identifier_eq h hstarts hfuel
    | quote =>
      have htail := h.tail
      rw [hsize] at htail
      have hbehind := string_eq htail (Nat.lt_of_le_of_lt (Nat.le_add_left _ _) hfuel)
      rw [Lexeme.leading, hclass]
      change string t fuel (pos + 1) = _
      rw [hbehind, Found.ofLexeme, Lexeme.size, Lexeme.text, Nat.add_assoc]
      change _ = Except.ok (Found.mk _ _ (pos + (c.utf8Size + _)))
      rw [hsize]
      rfl
    | slash =>
      rw [hclass] at hspec
      obtain rfl : c = '/' := hspec
      exact slash_eq h
    | operator =>
      rw [hclass] at hspec
      rw [Lexeme.leading, hclass, ← operator_eq h hspec]
    | punctuation =>
      rw [hclass] at hspec
      rw [Lexeme.leading, hclass, ← punctuation_eq cs hspec]
    | invalid =>
      have hforeign : Text.isForeignLetter c = false := by
        rw [Text.isForeignLetter, decide_eq_false (by omega), Bool.false_and]
      rw [Lexeme.leading, hclass]
      change _ = Except.ok (Found.ofLexeme pos (if Text.isForeignLetter c then _ else _))
      rw [if_neg (by simp [hforeign]), Found.ofLexeme, Lexeme.size, Lexeme.text, Text.size_cons,
        hsize]
      rfl
  · have hlarge := h.peek_foreign (Nat.le_of_not_lt hc)
    rw [found, if_neg (by omega)]
    exact foreign_eq h (Nat.le_of_not_lt hc) hfuel

end ByteScanner

end Reparse
