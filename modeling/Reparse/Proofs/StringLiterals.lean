import Reparse.Grammar.Expressions
import Reparse.Proofs.ByteScanning

/-!
# String literals

The scanner and the reader of string tokens each decide for themselves where the escapes of a
literal are and which quote closes it. They agree: a text written as a literal is read back,
whatever stands behind it, and the reader comes to a closing quote in just those string tokens that
are scanned without a fault.
-/

namespace Reparse

namespace Grammar

open Lexeme (StringBody)

variable {w : Text} {c : Char}

/-- A character of a string literal, with or without a backslash before it. -/
inductive Letter
  | plain (c : Char)
  | escape (c : Char)
  deriving DecidableEq, Repr

/-- Why reading a string literal ends: at a quote that no backslash takes, with what stands behind
it; with the text; or at a backslash that has nothing to take. -/
inductive LiteralEnd
  | quote (behind : Text)
  | ended
  | dangling
  deriving DecidableEq, Repr

def Letter.spelling : Letter → Text
  | plain c => [c]
  | escape c => ['\\', c]

def Letter.value : Letter → Char
  | plain c => c
  | escape c => escaped c

def LiteralEnd.left : LiteralEnd → Text
  | quote behind => '"' :: behind
  | ended => []
  | dangling => ['\\']

def letters : Text → List Letter × LiteralEnd
  | [] => ([], .ended)
  | c :: cs =>
    if c = '"' then ([], .quote cs)
    else if c = '\\' then
      match cs with
      | [] => ([], .dangling)
      | d :: ds =>
        let (rest, stop) := letters ds
        (.escape d :: rest, stop)
    else
      let (rest, stop) := letters cs
      (.plain c :: rest, stop)

theorem letters_quote (cs : Text) : letters ('"' :: cs) = ([], .quote cs) := by
  rw [letters.eq_def]
  rfl

theorem letters_escape (d : Char) (ds : Text) :
    letters ('\\' :: d :: ds) = (.escape d :: (letters ds).1, (letters ds).2) := by
  rw [letters, if_neg (by decide), if_pos rfl]

theorem letters_plain (hquote : c ≠ '"') (hescape : c ≠ '\\') (cs : Text) :
    letters (c :: cs) = (.plain c :: (letters cs).1, (letters cs).2) := by
  rw [letters.eq_def]
  simp only [if_neg hquote, if_neg hescape]

theorem unescapeRest_quote (cs : Text) : unescapeRest ('"' :: cs) = [] := by
  rw [unescapeRest.eq_def]
  rfl

theorem unescapeRest_escape (d : Char) (ds : Text) :
    unescapeRest ('\\' :: d :: ds) = escaped d :: unescapeRest ds := by
  rw [unescapeRest, if_neg (by decide), if_pos rfl]

theorem unescapeRest_plain (hquote : c ≠ '"') (hescape : c ≠ '\\') (cs : Text) :
    unescapeRest (c :: cs) = c :: unescapeRest cs := by
  rw [unescapeRest.eq_def]
  simp only [if_neg hquote, if_neg hescape]

theorem unescapeRest_eq (cs : Text) : unescapeRest cs = (letters cs).1.map Letter.value := by
  induction cs using letters.induct with
  | case1 => rfl
  | case2 cs => rw [unescapeRest_quote, letters_quote, List.map_nil]
  | case3 => rfl
  | case4 d ds rest stop hrest _ ih =>
    rw [unescapeRest_escape, letters_escape, ih]
    rfl
  | case5 c cs hquote hescape rest stop hrest ih =>
    rw [unescapeRest_plain hquote hescape, letters_plain hquote hescape, ih]
    rfl

theorem spelled (cs : Text) :
    cs = (letters cs).1.flatMap Letter.spelling ++ (letters cs).2.left := by
  induction cs using letters.induct with
  | case1 => rfl
  | case2 cs =>
    rw [letters_quote]
    rfl
  | case3 => rfl
  | case4 d ds rest stop hrest _ ih =>
    rw [letters_escape]
    exact congrArg ('\\' :: d :: ·) ih
  | case5 c cs hquote hescape rest stop hrest ih =>
    rw [letters_plain hquote hescape]
    exact congrArg (c :: ·) ih

theorem letters_body (hw : StringBody w) (u : Text) :
    letters (w ++ u) = ((letters w).1 ++ (letters u).1, (letters u).2) := by
  induction hw with
  | nil => rfl
  | plain hquote _ hescape _ ih =>
    rw [List.cons_append, letters_plain hquote hescape, letters_plain hquote hescape, ih]
    rfl
  | escape _ _ ih =>
    rw [List.cons_append, List.cons_append, letters_escape, letters_escape, ih]
    rfl

def quoteChar (c : Char) : Text :=
  if c = '"' ∨ c = '\\' then ['\\', c] else if c = '\n' then ['\\', 'n'] else [c]

def quote (v : Text) : Text := '"' :: (v.flatMap quoteChar ++ ['"'])

theorem quoteChar_body (c : Char) (hw : StringBody w) : StringBody (quoteChar c ++ w) := by
  by_cases hspecial : c = '"' ∨ c = '\\'
  · have hfeed : c ≠ '\n' := by
      rintro rfl
      revert hspecial
      decide
    rw [quoteChar, if_pos hspecial]
    exact .escape hfeed hw
  · by_cases hfeed : c = '\n'
    · rw [quoteChar, if_neg hspecial, if_pos hfeed]
      exact .escape (by decide) hw
    · rw [quoteChar, if_neg hspecial, if_neg hfeed]
      exact .plain (fun h => hspecial (.inl h)) hfeed (fun h => hspecial (.inr h)) hw

theorem unescapeRest_quoteChar (c : Char) (u : Text) :
    unescapeRest (quoteChar c ++ u) = c :: unescapeRest u := by
  by_cases hspecial : c = '"' ∨ c = '\\'
  · have hescaped : escaped c = c := by rcases hspecial with rfl | rfl <;> rfl
    rw [quoteChar, if_pos hspecial, List.cons_append, List.singleton_append, unescapeRest_escape,
      hescaped]
  · by_cases hfeed : c = '\n'
    · rw [quoteChar, if_neg hspecial, if_pos hfeed, hfeed, List.cons_append, List.singleton_append,
        unescapeRest_escape]
      rfl
    · rw [quoteChar, if_neg hspecial, if_neg hfeed, List.singleton_append,
        unescapeRest_plain (fun h => hspecial (.inl h)) fun h => hspecial (.inr h)]

theorem body_flatMap_quoteChar (v : Text) : StringBody (v.flatMap quoteChar) := by
  induction v with
  | nil => exact .nil
  | cons c v ih => exact quoteChar_body c ih

theorem unescape_quote (v : Text) : unescape (quote v) = v := by
  change unescapeRest (v.flatMap quoteChar ++ ['"']) = v
  induction v with
  | nil => rfl
  | cons c v ih => rw [List.flatMap_cons, List.append_assoc, unescapeRest_quoteChar, ih]

end Grammar

namespace Lexeme

open Grammar (Letter LiteralEnd letters spelled letters_body letters_quote unescape unescapeRest_eq
  quoteChar body_flatMap_quoteChar)

variable {l : Lexeme} {w u t body d : Text} {f : Option Code}

/-- How reading a string token goes, and what that says of the fault it was scanned with. -/
structure ReadAsScanned (l : Lexeme) : Prop where
  opened : l.first = '"'
  value : unescape l.text = (letters l.rest).1.map Letter.value
  closed : (∃ behind, (letters l.rest).2 = .quote behind) ↔ l.fault ≠ some .openString
  last : ∀ behind, (letters l.rest).2 = .quote behind → behind = []
  whole : l.rest = (letters l.rest).1.flatMap Letter.spelling ++ (letters l.rest).2.left
  dropped : l.fault = some .openString → (letters l.rest).2.left ∈ [[], ['\\']]

theorem Form.string_cases {k : Kind} (h : Form w u k f) (hk : k = .string) :
    (∃ body, StringBody body ∧ w = '"' :: (body ++ ['"']) ∧ f = none) ∨
      ∃ body d, StringBody body ∧ d ∈ [[], ['\\']] ∧ w = '"' :: (body ++ d) ∧
        f = some .openString := by
  cases h with
  | lineFeed | lineBreak | blanks | word | lineComment | blockComment | openComment | strange =>
    cases hk
  | keyword hcategory => exact absurd (hk ▸ hcategory) (by decide)
  | symbol hsymbol => exact absurd (hk ▸ hsymbol) (by unfold IsSymbol; decide)
  | number hnumeral =>
    cases hnumeral with
    | mk => split at hk <;> cases hk
  | string hbody => exact .inl ⟨_, hbody, rfl, rfl⟩
  | openString hbody hd => exact .inr ⟨_, _, hbody, hd, rfl, rfl⟩

theorem letters_closed (hbody : StringBody body) :
    (letters (body ++ ['"'])).2 = .quote [] := by
  rw [letters_body hbody, letters_quote]

theorem letters_open (hbody : StringBody body) (hd : d ∈ [[], ['\\']]) :
    (letters (body ++ d)).2.left = d ∧ ∀ behind, (letters (body ++ d)).2 ≠ .quote behind := by
  rw [letters_body hbody]
  rcases List.mem_cons.mp hd with rfl | hd
  · exact ⟨rfl, nofun⟩
  · rw [List.mem_singleton.mp hd]
    exact ⟨rfl, nofun⟩

theorem readAsScanned_of_form (h : Form l.text u l.kind l.fault) (hk : l.kind = .string) :
    l.ReadAsScanned := by
  obtain ⟨kind, first, rest, fault⟩ := l
  have hvalue : first = '"' → unescape (first :: rest) = (letters rest).1.map Letter.value := by
    rintro rfl
    exact unescapeRest_eq rest
  rcases h.string_cases hk with
    ⟨body, hbody, htext, hfault⟩ | ⟨body, d, hbody, hd, htext, hfault⟩
  · obtain ⟨hfirst, rfl⟩ := List.cons.inj htext
    have hend := letters_closed hbody
    refine ⟨hfirst, hvalue hfirst, ?_, fun behind h => ?_, spelled _, fun h => ?_⟩
    · exact ⟨fun _ h => (nomatch hfault.symm.trans h), fun _ => ⟨[], hend⟩⟩
    · exact (LiteralEnd.quote.inj (hend.symm.trans h)).symm
    · exact nomatch hfault.symm.trans h
  · obtain ⟨hfirst, rfl⟩ := List.cons.inj htext
    obtain ⟨hleft, hopen⟩ := letters_open hbody hd
    refine ⟨hfirst, hvalue hfirst, ?_, fun behind h => absurd h (hopen behind), spelled _,
      fun _ => hleft.symm ▸ hd⟩
    exact ⟨fun ⟨behind, h⟩ => absurd h (hopen behind), fun h => absurd hfault h⟩

theorem readAsScanned_leading {c : Char} {cs : Text} (hk : (leading c cs).kind = .string) :
    (leading c cs).ReadAsScanned :=
  readAsScanned_of_form (leading_form c cs) hk

theorem Cuts.readAsScanned {ls : List Lexeme} (h : Cuts t ls u) :
    ∀ l ∈ ls, l.kind = .string → l.ReadAsScanned := by
  induction h with
  | nil => exact nofun
  | cons _ ih =>
    intro l hl hk
    rcases List.mem_cons.mp hl with rfl | hl
    · exact readAsScanned_leading hk
    · exact ih l hl hk

def ofLiteral (v : Text) : Lexeme := ⟨.string, '"', v.flatMap quoteChar ++ ['"'], none⟩

theorem leading_quote (v u : Text) :
    leading '"' (v.flatMap quoteChar ++ ['"'] ++ u) = ofLiteral v :=
  leading_string (body_flatMap_quoteChar v) u

end Lexeme

namespace ByteScanner

open Lexeme (ReadAsScanned ofLiteral leading_quote readAsScanned_leading)
open Grammar (quote quoteChar)

variable {t : Text} {fuel pos stop : Nat} {m : Mark}

theorem slice_leading {c : Char} {cs : Text} (h : Stands t pos (c :: cs)) :
    Text.slice pos (pos + (Lexeme.leading c cs).size) t = (Lexeme.leading c cs).text := by
  obtain ⟨a, rfl, rfl⟩ := h
  have htext := Lexeme.leading_text c cs
  rw [← htext, ← List.append_assoc, Lexeme.size, ← Text.size_append]
  exact Text.slice_append ..

theorem readAsScanned (hfuel : Text.size t - pos < fuel)
    (hnext : next? t fuel pos = .ok (some (m, stop))) (hk : m.kind = .string) :
    ∃ l : Lexeme, l.text = Text.slice pos stop t ∧ Mark.ofLexeme l = m ∧ l.ReadAsScanned := by
  rcases offset_cases t pos with ⟨b, h⟩ | ⟨pos, c, cs, k, h, hinside, hlt, rfl⟩ | hpast
  · have hend := h.size_eq
    cases b with
    | nil =>
      rw [next?_end (Nat.le_of_eq hend.symm : Text.size t ≤ pos)] at hnext
      cases hnext
    | cons c cs =>
      rw [next?_cons h (by omega)] at hnext
      cases hnext
      exact ⟨Lexeme.leading c cs, (slice_leading h).symm, rfl, readAsScanned_leading hk⟩
  · rw [next?_inside h hinside hlt] at hnext
    cases hnext
    cases hk
  · rw [next?_end (Nat.le_of_lt hpast)] at hnext
    cases hnext

theorem next?_quote (a v u : Text) (hfuel : Text.size (quote v ++ u) < fuel) :
    next? (a ++ (quote v ++ u)) fuel (Text.size a) =
      .ok (some (⟨.string, Text.size (quote v), none⟩, Text.size a + Text.size (quote v))) := by
  have h : Stands (a ++ (quote v ++ u)) (Text.size a)
      ('"' :: (v.flatMap quoteChar ++ ['"'] ++ u)) := ⟨a, rfl, rfl⟩
  rw [next?_cons h hfuel, leading_quote]
  rfl

end ByteScanner

namespace Lexeme

open Grammar (quote unescape unescape_quote)

theorem all_quote (v u : Text) : all (quote v ++ u) = ofLiteral v :: all u := by
  have hcons := ByteScanner.all_cons '"' (v.flatMap Grammar.quoteChar ++ ['"'] ++ u)
  rw [leading_quote, ofLiteral, List.drop_left] at hcons
  exact hcons

/-- Scanning and reading agree on every string literal. A text written as a literal is one string
token without a fault, whatever stands before and behind it, and that token is read as the text. In
every string token of every source, reading comes to a closing quote just if the token was scanned
without a fault, and that quote is its last character; of an open literal every character is read,
but for a backslash at its end. -/
theorem strings_agree :
    (∀ v u : Text, ∃ l : Lexeme, l.kind = .string ∧ l.fault = none ∧ l.text = quote v ∧
      all (quote v ++ u) = l :: all u ∧ unescape l.text = v ∧
      ∀ a fuel, Text.size (quote v ++ u) < fuel →
        ByteScanner.next? (a ++ (quote v ++ u)) fuel (Text.size a) =
          .ok (some (Mark.ofLexeme l, Text.size a + Text.size (quote v)))) ∧
    (∀ t : Text, ∀ l ∈ all t, l.kind = .string → l.ReadAsScanned) ∧
    ∀ t fuel pos m stop, Text.size t - pos < fuel →
      ByteScanner.next? t fuel pos = .ok (some (m, stop)) → m.kind = .string →
      ∃ l : Lexeme, l.text = Text.slice pos stop t ∧ Mark.ofLexeme l = m ∧ l.ReadAsScanned :=
  ⟨fun v u => ⟨ofLiteral v, rfl, rfl, rfl, all_quote v u, unescape_quote v,
      fun a _ => ByteScanner.next?_quote a v u⟩,
    fun t => (Cuts.all t).readAsScanned,
    fun _ _ _ _ _ => ByteScanner.readAsScanned⟩

theorem strings_agree_escapes :
    (∃ l : Lexeme, l.text = ['"', '\\', '\\', '\\', '"', '\\', 'n', 'é', '"'] ∧
      all (l.text ++ ['"', ';']) = l :: all ['"', ';'] ∧
      unescape l.text = ['\\', '"', '\n', 'é'] ∧
      ByteScanner.next? (['x'] ++ (l.text ++ ['"', ';'])) 13 1 =
        .ok (some (⟨.string, 10, none⟩, 11))) ∧
    (⟨.string, '"', ['a', '\\', '"', '\\'], some .openString⟩ : Lexeme) ∈
      all ['"', 'a', '\\', '"', '\\', '\n', '"'] ∧
    (⟨.string, '"', ['a', '\\', '"', '\\'], some .openString⟩ : Lexeme).ReadAsScanned ∧
    ∃ l : Lexeme, l.text = ['"', 'é', '\\'] ∧
      ByteScanner.next? ['é', '"', 'é', '\\'] 5 2 =
        .ok (some (⟨.string, 4, some .openString⟩, 6)) ∧ l.ReadAsScanned := by
  obtain ⟨hquoted, hscanned, hbytes⟩ := strings_agree
  have hopen : (⟨.string, '"', ['a', '\\', '"', '\\'], some .openString⟩ : Lexeme) ∈
      all ['"', 'a', '\\', '"', '\\', '\n', '"'] := by decide
  refine ⟨?_, hopen, hscanned _ _ hopen rfl, ?_⟩
  · obtain ⟨l, hkind, hfault, htext, hall, hvalue, hnext⟩ :=
      hquoted ['\\', '"', '\n', 'é'] ['"', ';']
    have hmark : Mark.ofLexeme l = ⟨.string, 10, none⟩ := by
      rw [Mark.ofLexeme, size, hkind, hfault, htext]
      decide
    refine ⟨l, htext, htext ▸ hall, hvalue, ?_⟩
    have hone := hnext ['x'] 13 (by decide)
    rw [hmark] at hone
    exact htext ▸ hone
  · have hnext : ByteScanner.next? ['é', '"', 'é', '\\'] 5 2 =
        .ok (some (⟨.string, 4, some .openString⟩, 6)) := by decide +kernel
    obtain ⟨l, htext, -, hread⟩ := hbytes _ _ _ _ _ (by decide) hnext rfl
    exact ⟨l, htext, hnext, hread⟩

end Lexeme

end Reparse
