import Reparse.Proofs.Lexeme.ByteScanner
import Reparse.Proofs.Lexeme.LexicalGrammar

/-!
# Loops over bytes

Where a character starts, looking at bytes says as much as looking at characters: a byte that passes
an ASCII test is a character of its own. A loop that starts there passes whole characters, so it
stops where another one starts, and it ends, for it does not pass a character twice.
-/

namespace Reparse

namespace ByteScanner

/-- The text from `pos` on is `b`. -/
def Stands (t : Text) (pos : Nat) (b : Text) : Prop := ∃ a, t = a ++ b ∧ Text.size a = pos

variable {t b w : Text} {pos fuel : Nat} {c : Char}

namespace Stands

theorem start (t : Text) : Stands t 0 t := ⟨[], rfl, rfl⟩

theorem of_onBoundary (h : Text.onBoundary pos t = true) :
    Stands t pos (Text.dropBytes pos t) :=
  ⟨Text.takeBytes pos t, (Text.takeBytes_append_dropBytes pos t).symm, of_decide_eq_true h⟩

theorem size_eq (h : Stands t pos b) : pos + Text.size b = Text.size t := by
  obtain ⟨a, rfl, rfl⟩ := h
  exact (Text.size_append a b).symm

theorem onBoundary (h : Stands t pos b) : Text.onBoundary pos t = true := by
  obtain ⟨a, rfl, rfl⟩ := h
  exact Text.onBoundary_size_append a b

theorem dropBytes (h : Stands t pos b) : Text.dropBytes pos t = b := by
  obtain ⟨a, rfl, rfl⟩ := h
  exact Text.dropBytes_size_append a b

theorem skip (h : Stands t pos (w ++ b)) : Stands t (pos + Text.size w) b := by
  obtain ⟨a, rfl, rfl⟩ := h
  exact ⟨a ++ w, (List.append_assoc a w b).symm, Text.size_append a w⟩

theorem tail (h : Stands t pos (c :: b)) : Stands t (pos + c.utf8Size) b := h.skip (w := [c])

theorem drop (h : Stands t pos b) (hw : w <+: b) :
    Stands t (pos + Text.size w) (b.drop w.length) := by
  apply skip
  rwa [List.prefix_iff_eq_append.mp hw]

theorem octets_drop (h : Stands t pos b) : (Text.octets t).drop pos = Text.octets b := by
  obtain ⟨a, rfl, rfl⟩ := h
  rw [Text.octets_append, ← Text.length_octets, List.drop_left]

theorem octets_getElem? (h : Stands t pos b) (n : Nat) :
    (Text.octets t)[pos + n]? = (Text.octets b)[n]? := by
  rw [← h.octets_drop, List.getElem?_drop]

theorem bytesFrom_eq (h : Stands t pos b) : bytesFrom t pos = .ok (Text.octets b) := by
  have hle : pos ≤ Text.size t := by
    have hsize := h.size_eq
    omega
  rw [bytesFrom, if_pos hle, h.octets_drop]

theorem character?_eq (h : Stands t pos b) : character? t pos = b.head? := by
  rw [character?, if_pos h.onBoundary, h.dropBytes]

theorem textBetween_eq (h : Stands t pos (w ++ b)) :
    textBetween t pos (pos + Text.size w) = .ok w := by
  have hinside : ¬(pos + Text.size w < pos ∨ Text.size t < pos + Text.size w) := by
    have hsize := h.skip.size_eq
    omega
  have hboundary : (Text.onBoundary pos t && Text.onBoundary (pos + Text.size w) t) = true := by
    rw [h.onBoundary, h.skip.onBoundary]
    rfl
  have hslice : Text.slice pos (pos + Text.size w) t = w := by
    rw [Text.slice, h.dropBytes, Nat.add_sub_cancel_left, Text.takeBytes_size_append]
  rw [textBetween, if_neg hinside, if_pos hboundary, hslice]

theorem peek_nil (h : Stands t pos []) : peek t pos 0 = '\x00' := by
  rw [peek, h.octets_getElem?]
  rfl

theorem peek_ascii (h : Stands t pos (c :: b)) (hc : c.toNat < 128) : peek t pos 0 = c := by
  rw [peek, h.octets_getElem?, Text.octets_ascii hc]
  rfl

theorem peek_foreign (h : Stands t pos (c :: b)) (hc : 128 ≤ c.toNat) :
    128 ≤ (peek t pos 0).toNat := by
  obtain ⟨d, ds, hds, -, hlarge⟩ := Text.octets_foreign hc b
  rw [peek, h.octets_getElem?, hds]
  exact hlarge d List.mem_cons_self

theorem test_peek (h : Stands t pos b) {p : Char → Bool} (hascii : ∀ c, p c = true → c.toNat < 128)
    (hzero : p '\x00' = false) : p (peek t pos 0) = b.head?.any p := by
  cases b with
  | nil =>
    rw [h.peek_nil, hzero]
    rfl
  | cons c cs =>
    by_cases hc : c.toNat < 128
    · rw [h.peek_ascii hc]
      rfl
    · have hlarge := h.peek_foreign (Nat.le_of_not_lt hc)
      have hbyte : p (peek t pos 0) = false := by
        apply Bool.eq_false_iff.mpr
        intro hp
        have hless := hascii _ hp
        omega
      have hcharacter : p c = false := Bool.eq_false_iff.mpr fun hp => hc (hascii c hp)
      rw [hbyte]
      exact hcharacter.symm

theorem peek_eq_iff (h : Stands t pos b) {d : Char} (hd : d.toNat < 128) (hzero : d ≠ '\x00') :
    peek t pos 0 = d ↔ b.head? = some d := by
  have hascii : ∀ c, decide (c = d) = true → c.toNat < 128 := fun c hc =>
    of_decide_eq_true hc ▸ hd
  have htest := h.test_peek hascii (decide_eq_false hzero.symm)
  rw [← decide_eq_true_iff (p := peek t pos 0 = d), htest]
  cases b with
  | nil => simp
  | cons c cs => simp

theorem isDigit_peek (h : Stands t pos b) :
    (peek t pos 0).isDigit = b.head?.any Char.isDigit :=
  h.test_peek (fun c hc => (Lexeme.toNat_of_isDigit hc).2.trans (by decide)) rfl

end Stands

theorem peek_succ (pos n : Nat) : peek t pos (1 + n) = peek t (pos + 1) n := by
  rw [peek, peek, Nat.add_assoc]

theorem advance_eq {step : Nat → Option Nat} {reads : Text → Text}
    (hstep : ∀ pos b, Stands t pos b → (reads b = [] ∧ step pos = none) ∨
      ∃ c cs, b = c :: cs ∧ reads b = c :: reads cs ∧ step pos = some c.utf8Size)
    (h : Stands t pos b) (hfuel : Text.size b < fuel) :
    advance step fuel pos = .ok (pos + Text.size (reads b)) := by
  induction b generalizing pos fuel with
  | nil =>
    obtain ⟨fuel, rfl⟩ := Nat.exists_eq_add_one_of_ne_zero (Nat.ne_zero_of_lt hfuel)
    rcases hstep pos [] h with ⟨hreads, hnone⟩ | ⟨c, cs, hnil, -⟩
    · rw [advance, hnone, hreads]
      rfl
    · cases hnil
  | cons d ds ih =>
    obtain ⟨fuel, rfl⟩ := Nat.exists_eq_add_one_of_ne_zero (Nat.ne_zero_of_lt hfuel)
    rcases hstep pos (d :: ds) h with ⟨hreads, hnone⟩ | ⟨c, cs, hcons, hreads, hsome⟩
    · rw [advance, hnone, hreads]
      rfl
    · obtain ⟨rfl, rfl⟩ := List.cons.inj hcons
      have hpos := Char.utf8Size_pos d
      have hbehind : Text.size ds < fuel := by
        rw [Text.size_cons] at hfuel
        omega
      rw [advance, hsome, hreads, Text.size_cons, ← Nat.add_assoc]
      exact ih h.tail hbehind

def stepOver (p : Char → Bool) (b : Text) : Option Nat :=
  b.head?.bind fun c => if p c then some c.utf8Size else none

theorem stepOver_pos {p : Char → Bool} (hc : p c = true) (b : Text) :
    stepOver p (c :: b) = some c.utf8Size := if_pos hc

theorem stepOver_neg {p : Char → Bool} (hc : p c = false) (b : Text) :
    stepOver p (c :: b) = none := if_neg (by simp [hc])

theorem advance_takeWhile {step : Nat → Option Nat} {p : Char → Bool}
    (hstep : ∀ pos b, Stands t pos b → step pos = stepOver p b)
    (h : Stands t pos b) (hfuel : Text.size b < fuel) :
    advance step fuel pos = .ok (pos + Text.size (b.takeWhile p)) := by
  have hreads : ∀ pos b, Stands t pos b → (b.takeWhile p = [] ∧ step pos = none) ∨
      ∃ c cs, b = c :: cs ∧ b.takeWhile p = c :: cs.takeWhile p ∧
        step pos = some c.utf8Size := by
    intro pos b h
    rw [hstep pos b h]
    cases b with
    | nil => exact .inl ⟨rfl, rfl⟩
    | cons c cs =>
      cases hc : p c with
      | false => exact .inl ⟨List.takeWhile_cons_of_neg (by simp [hc]), stepOver_neg hc cs⟩
      | true => exact .inr ⟨c, cs, rfl, List.takeWhile_cons_of_pos hc, stepOver_pos hc cs⟩
  exact advance_eq hreads h hfuel

theorem digitStep_eq (h : Stands t pos b) : digitStep t pos = stepOver Char.isDigit b := by
  rw [digitStep, h.isDigit_peek]
  cases b with
  | nil => rfl
  | cons c cs =>
    cases hc : c.isDigit with
    | false => exact (if_neg (by simp [hc])).trans (stepOver_neg hc cs).symm
    | true =>
      have hsmall : c.toNat < 128 := (Lexeme.toNat_of_isDigit hc).2.trans (by decide)
      rw [stepOver_pos hc, Text.utf8Size_ascii hsmall]
      exact if_pos (by simp [hc])

theorem advance_digits (h : Stands t pos b) (hfuel : Text.size b < fuel) :
    advance (digitStep t) fuel pos = .ok (pos + Text.size (Lexeme.digits b)) :=
  advance_takeWhile (fun _ _ => digitStep_eq) h hfuel

theorem toNat_of_isAlphanum (h : c.isAlphanum = true ∨ c = '_') :
    c.toNat < 128 ∧ c ≠ '\x00' := by
  have hrange : 48 ≤ c.toNat ∧ c.toNat < 128 := by
    rcases h with h | rfl
    · rcases Bool.or_eq_true_iff.mp h with halpha | hdigit
      · have hrange := Lexeme.toNat_of_isAlpha halpha
        omega
      · have hrange := Lexeme.toNat_of_isDigit hdigit
        omega
    · decide
  refine ⟨hrange.2, ?_⟩
  rintro rfl
  exact absurd hrange.1 (by decide)

theorem isWordCharacter_ascii (hc : c.toNat < 128) :
    Lexeme.isWordCharacter c = true ↔ c.isAlphanum = true ∨ c = '_' := by
  have hforeign : Text.isForeignLetter c = false := by
    rw [Text.isForeignLetter, decide_eq_false (by omega), Bool.false_and]
  simp [Lexeme.isWordCharacter, hforeign]

theorem isWordCharacter_foreign (hc : 128 ≤ c.toNat) :
    Lexeme.isWordCharacter c = Text.isForeignLetter c := by
  have hword : ¬(c.isAlphanum = true ∨ c = '_') := by
    intro hword
    have hsmall := (toNat_of_isAlphanum hword).1
    omega
  have hfalse : (c.isAlphanum || decide (c = '_')) = false := by
    apply Bool.eq_false_iff.mpr
    simpa using hword
  rw [Lexeme.isWordCharacter, hfalse, Bool.false_or]

theorem wordStep_eq (h : Stands t pos b) :
    wordStep t pos = stepOver Lexeme.isWordCharacter b := by
  cases b with
  | nil =>
    rw [wordStep, h.peek_nil]
    rfl
  | cons c cs =>
    by_cases hc : c.toNat < 128
    · have hiff := isWordCharacter_ascii hc
      rw [wordStep, h.peek_ascii hc, if_pos hc]
      by_cases hword : c.isAlphanum = true ∨ c = '_'
      · have hzero := (toNat_of_isAlphanum hword).2
        rw [if_pos ⟨hzero, hword⟩, stepOver_pos (hiff.mpr hword), Text.utf8Size_ascii hc]
      · have hcharacter := Bool.eq_false_iff.mpr (mt hiff.mp hword)
        rw [if_neg fun hboth => hword hboth.2, stepOver_neg hcharacter]
    · have hlarge := h.peek_foreign (Nat.le_of_not_lt hc)
      have hcharacter := isWordCharacter_foreign (Nat.le_of_not_lt hc)
      rw [wordStep, if_neg (by omega), h.character?_eq, stepOver]
      simp only [List.head?_cons, Option.bind_some, hcharacter]

theorem advance_word (h : Stands t pos b) (hfuel : Text.size b < fuel) :
    advance (wordStep t) fuel pos = .ok (pos + Text.size (Lexeme.wordCharacters b)) :=
  advance_takeWhile (fun _ _ => wordStep_eq) h hfuel

theorem advance_blanks (h : Stands t pos b) (hfuel : Text.size b < fuel) :
    advance (blankStep t) fuel pos = .ok (pos + Text.size (Lexeme.blanks b)) := by
  apply advance_eq ?_ h hfuel
  intro pos b h
  have hspace := h.peek_eq_iff (d := ' ') (by decide) (by decide)
  have htab := h.peek_eq_iff (d := '\t') (by decide) (by decide)
  have hreturn := h.peek_eq_iff (d := '\r') (by decide) (by decide)
  simp only [blankStep, hspace, htab, hreturn]
  cases b with
  | nil => exact .inl ⟨rfl, rfl⟩
  | cons c cs =>
    simp only [List.head?_cons, Option.some.injEq]
    by_cases hblank : c = ' ' ∨ c = '\t'
    · have hsize : c.utf8Size = 1 := by rcases hblank with rfl | rfl <;> rfl
      refine .inr ⟨c, cs, rfl, ?_, by rw [if_pos hblank, hsize]⟩
      rw [Lexeme.blanks, if_pos (by rcases hblank with rfl | rfl <;> rfl)]
    · rw [if_neg hblank]
      by_cases hc : c = '\r'
      · subst hc
        have hfeed := h.tail.peek_eq_iff (d := '\n') (by decide) (by decide)
        have hbehind : peek t pos 1 = peek t (pos + '\r'.utf8Size) 0 := peek_succ pos 0
        simp only [hbehind, ne_eq, hfeed]
        by_cases hbreak : cs.head? = some '\n'
        · refine .inl ⟨?_, if_neg fun h => h.2 hbreak⟩
          rw [Lexeme.blanks, if_neg (by simp [hbreak])]
        · refine .inr ⟨'\r', cs, rfl, ?_, if_pos ⟨trivial, hbreak⟩⟩
          rw [Lexeme.blanks, if_pos (by simp [hbreak])]
      · refine .inl ⟨?_, if_neg fun h => hc h.1⟩
        rw [Lexeme.blanks, if_neg (by simp_all)]

end ByteScanner

end Reparse
