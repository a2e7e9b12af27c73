import Mathlib.Algebra.GroupWithZero.Nat
import Reparse.Proofs.Lexeme.ByteTokens
import Reparse.Proofs.Scanning

/-!
# Scanning a text by bytes

Scanning from any offset on comes to the end of the text without a fault. An offset is where a
character starts, or inside a character, or past the end: inside one, scanning takes single bytes up
to the next character, and from there on it finds the lexemes of the rest of the text.
-/

namespace Reparse

namespace ByteScanner

variable {t b : Text} {pos fuel : Nat} {c : Char}

theorem next?_end (h : Text.size t ≤ pos) : next? t fuel pos = .ok none := by
  have hnone : (Text.octets t)[pos]? = none := by
    apply List.getElem?_eq_none
    rwa [Text.length_octets]
  rw [next?, hnone]

theorem next?_cons {cs : Text} (h : Stands t pos (c :: cs)) (hfuel : Text.size (c :: cs) < fuel) :
    next? t fuel pos = .ok (some (Mark.ofLexeme (Lexeme.leading c cs),
      pos + (Lexeme.leading c cs).size)) := by
  have hbyte : (Text.octets t)[pos]? = some (peek t pos 0) := by
    have hinside : pos < (Text.octets t).length := by
      have hend := h.tail.size_eq
      have hpos := Char.utf8Size_pos c
      rw [Text.length_octets]
      omega
    rw [peek, Nat.add_zero, List.getElem?_eq_getElem hinside]
    rfl
  rw [next?, hbyte]
  change (found t fuel (peek t pos 0) pos >>= _) = _
  rw [found_eq h hfuel, ok_bind, Found.ofLexeme, Nat.add_sub_cancel_left]
  rfl

theorem takeBytes_within {cs : Text} {k : Nat} (h : Stands t pos (c :: cs)) (hk : 0 < k)
    (hle : k ≤ c.utf8Size) :
    Text.size (Text.takeBytes (pos + k) t) = pos + c.utf8Size ∧
      Text.dropBytes (pos + k) t = cs := by
  obtain ⟨a, rfl, rfl⟩ := h
  induction a with
  | nil =>
    obtain ⟨n, rfl⟩ := Nat.exists_eq_add_one_of_ne_zero (Nat.ne_zero_of_lt hk)
    have hnone : n + 1 - c.utf8Size = 0 := Nat.sub_eq_zero_of_le hle
    rw [Text.size_nil, Nat.zero_add, Nat.zero_add, List.nil_append, Text.takeBytes, Text.dropBytes,
      hnone]
    have htake : Text.takeBytes 0 cs = [] := Text.takeBytes_size_append [] cs
    have hdrop : Text.dropBytes 0 cs = cs := Text.dropBytes_size_append [] cs
    rw [htake, hdrop]
    exact ⟨rfl, rfl⟩
  | cons d a ih =>
    have hpos := Char.utf8Size_pos d
    obtain ⟨n, hn⟩ : ∃ n, Text.size (d :: a) + k = n + 1 :=
      ⟨Text.size (d :: a) + k - 1, by rw [Text.size_cons]; omega⟩
    have hrest : n + 1 - d.utf8Size = Text.size a + k := by
      rw [Text.size_cons] at hn
      omega
    rw [hn, List.cons_append, Text.takeBytes, Text.dropBytes, hrest, Text.size_cons, ih.1, ih.2,
      Text.size_cons, Nat.add_assoc]
    exact ⟨rfl, rfl⟩

theorem not_onBoundary {cs : Text} {k : Nat} (h : Stands t pos (c :: cs)) (hk : 0 < k)
    (hlt : k < c.utf8Size) : Text.onBoundary (pos + k) t = false := by
  have hsize := (takeBytes_within h hk (Nat.le_of_lt hlt)).1
  rw [Text.onBoundary, hsize]
  exact decide_eq_false (by omega)

theorem offset_cases (t : Text) (n : Nat) :
    (∃ b, Stands t n b) ∨
      (∃ pos c cs k, Stands t pos (c :: cs) ∧ 0 < k ∧ k < c.utf8Size ∧ n = pos + k) ∨
      Text.size t < n := by
  induction t generalizing n with
  | nil =>
    by_cases hn : n = 0
    · exact .inl ⟨[], [], rfl, hn.symm⟩
    · exact .inr (.inr (Nat.pos_of_ne_zero hn))
  | cons d ds ih =>
    by_cases hzero : n = 0
    · exact .inl ⟨d :: ds, [], rfl, hzero.symm⟩
    · by_cases hinside : n < d.utf8Size
      · exact .inr (.inl ⟨0, d, ds, n, .start _, Nat.pos_of_ne_zero hzero, hinside,
          (Nat.zero_add n).symm⟩)
      · obtain ⟨m, rfl⟩ := Nat.exists_eq_add_of_le (Nat.le_of_not_lt hinside)
        have hshift : ∀ {pos b}, Stands ds pos b → Stands (d :: ds) (d.utf8Size + pos) b := by
          rintro pos b ⟨a, rfl, rfl⟩
          exact ⟨d :: a, rfl, rfl⟩
        rcases ih m with ⟨b, h⟩ | ⟨pos, c, cs, k, h, hk, hlt, rfl⟩ | hpast
        · exact .inl ⟨b, hshift h⟩
        · exact .inr (.inl ⟨_, c, cs, k, hshift h, hk, hlt, (Nat.add_assoc ..).symm⟩)
        · exact .inr (.inr (Nat.add_lt_add_left hpast d.utf8Size))

theorem next?_inside {cs : Text} {k : Nat} (h : Stands t pos (c :: cs)) (hk : 0 < k)
    (hlt : k < c.utf8Size) :
    next? t fuel (pos + k) = .ok (some (Mark.strayByte, pos + k + 1)) := by
  have hforeign : 128 ≤ c.toNat := by
    by_contra hsmall
    have hone := Text.utf8Size_ascii (Nat.lt_of_not_le hsmall)
    omega
  have hcharacter : character? t (pos + k) = none := by
    rw [character?, not_onBoundary h hk hlt]
    rfl
  obtain ⟨d, ds, hds, hlength, hlarge⟩ := Text.octets_foreign hforeign cs
  have hinside : k < (d :: ds).length := hlength.symm ▸ hlt
  have hbyte : (Text.octets t)[pos + k]? = some (d :: ds)[k] := by
    rw [h.octets_getElem?, hds, List.getElem?_append_left hinside, List.getElem?_eq_getElem hinside]
  have hleast := hlarge _ (List.getElem_mem hinside)
  rw [next?, hbyte]
  change (found t fuel (d :: ds)[k] (pos + k) >>= _) = _
  rw [found, if_neg (by omega), foreign, hcharacter, ok_bind, Nat.add_sub_cancel_left]
  rfl

theorem all_cons (c : Char) (cs : Text) : Lexeme.all (c :: cs) =
    Lexeme.leading c cs :: Lexeme.all (cs.drop (Lexeme.leading c cs).rest.length) :=
  (Lexeme.Cuts.all (c :: cs)).unique (.cons (.all _))

theorem run_next {m : Mark} {ms : List Mark} {stop last : Nat}
    (hnext : next? t (fuel + 1) pos = .ok (some (m, stop)))
    (hrun : run t fuel stop = .ok (ms, last)) : run t (fuel + 1) pos = .ok (m :: ms, last) := by
  rw [run, hnext, ok_bind]
  change (run t fuel stop >>= _) = _
  rw [hrun]
  rfl

theorem run_end (h : Text.size t ≤ pos) (hfuel : 0 < fuel) : run t fuel pos = .ok ([], pos) := by
  obtain ⟨fuel, rfl⟩ := Nat.exists_eq_add_one_of_ne_zero (Nat.ne_zero_of_lt hfuel)
  rw [run, next?_end h]
  rfl

theorem run_stands (h : Stands t pos b) (hfuel : Text.size b < fuel) :
    run t fuel pos = .ok ((Lexeme.all b).map Mark.ofLexeme, Text.size t) := by
  induction fuel generalizing pos b with
  | zero => exact absurd hfuel (Nat.not_lt_zero _)
  | succ fuel ih =>
    cases b with
    | nil =>
      have hend : pos = Text.size t := h.size_eq
      rw [run_end (Nat.le_of_eq hend.symm) (Nat.succ_pos fuel), hend]
      rfl
    | cons c cs =>
      have htext := Lexeme.leading_text c cs
      have hbehind : Stands t (pos + (Lexeme.leading c cs).size)
          (cs.drop (Lexeme.leading c cs).rest.length) := Stands.skip (htext.symm ▸ h)
      have hless : Text.size (cs.drop (Lexeme.leading c cs).rest.length) < fuel := by
        have hpos := Lexeme.size_pos (Lexeme.leading c cs)
        have hwhole := h.size_eq
        have hrest := hbehind.size_eq
        omega
      rw [all_cons, List.map_cons]
      exact run_next (next?_cons h hfuel) (ih hbehind hless)

theorem run_inside {cs : Text} {k n : Nat} (h : Stands t pos (c :: cs)) (hk : 0 < k)
    (hn : k + n = c.utf8Size) (hfuel : n + Text.size cs < fuel) :
    run t fuel (pos + k) = .ok (List.replicate n Mark.strayByte ++
      (Lexeme.all cs).map Mark.ofLexeme, Text.size t) := by
  induction n generalizing k fuel with
  | zero =>
    obtain rfl : k = c.utf8Size := hn
    exact run_stands h.tail (by omega)
  | succ n ih =>
    obtain ⟨fuel, rfl⟩ := Nat.exists_eq_add_one_of_ne_zero (Nat.ne_zero_of_lt hfuel)
    have hbehind : run t fuel (pos + (k + 1)) = _ :=
      ih (Nat.succ_pos k) (by omega) (by omega)
    exact run_next (next?_inside h hk (by omega)) hbehind

theorem allFrom_stands (h : Stands t pos b) :
    Mark.allFrom pos t = (Lexeme.all b).map Mark.ofLexeme := by
  obtain ⟨a, rfl, rfl⟩ := h
  exact Mark.allFrom_size_append a b

theorem allFrom_inside {cs : Text} {k n : Nat} (h : Stands t pos (c :: cs)) (hk : 0 < k)
    (hn : k + n = c.utf8Size) : Mark.allFrom (pos + k) t =
      List.replicate n Mark.strayByte ++ (Lexeme.all cs).map Mark.ofLexeme := by
  obtain ⟨htake, hdrop⟩ := takeBytes_within h hk (by omega)
  have hstray : pos + c.utf8Size - (pos + k) = n := by omega
  rw [Mark.allFrom, htake, hdrop, hstray]

theorem dropBytes_past (h : Text.size t ≤ pos) : Text.dropBytes pos t = [] := by
  induction t generalizing pos with
  | nil => cases pos <;> rfl
  | cons c cs ih =>
    have hpos := Char.utf8Size_pos c
    rw [Text.size_cons] at h
    obtain ⟨n, rfl⟩ := Nat.exists_eq_add_one_of_ne_zero (n := pos) (by omega)
    exact ih (by omega)

theorem allFrom_past (h : Text.size t < pos) : Mark.allFrom pos t = [] := by
  have hwhole := congrArg Text.size (Text.takeBytes_append_dropBytes pos t)
  rw [Text.size_append] at hwhole
  rw [Mark.allFrom, dropBytes_past (Nat.le_of_lt h), Nat.sub_eq_zero_of_le (by omega)]
  rfl

theorem run_eq (t : Text) (start : Nat) (hfuel : Text.size t - start < fuel) :
    run t fuel start = .ok (Mark.allFrom start t, max start (Text.size t)) := by
  rcases offset_cases t start with ⟨b, h⟩ | ⟨pos, c, cs, k, h, hk, hlt, rfl⟩ | hpast
  · have hend := h.size_eq
    rw [allFrom_stands h, Nat.max_eq_right (by omega)]
    exact run_stands h (by omega)
  · have hend := h.tail.size_eq
    obtain ⟨n, hn⟩ := Nat.exists_eq_add_of_le (Nat.le_of_lt hlt)
    rw [allFrom_inside h hk hn.symm, Nat.max_eq_right (by omega)]
    exact run_inside h hk hn.symm (by omega)
  · rw [allFrom_past hpast, Nat.max_eq_left (Nat.le_of_lt hpast)]
    exact run_end (Nat.le_of_lt hpast) (by omega)

theorem size_pos_of_mem_allFrom {m : Mark} (hm : m ∈ Mark.allFrom pos t) : 1 ≤ m.size := by
  rcases List.mem_append.mp hm with hstray | hlexeme
  · rw [List.eq_of_mem_replicate hstray]
    exact Nat.le_refl 1
  · obtain ⟨l, -, rfl⟩ := List.mem_map.mp hlexeme
    exact Lexeme.size_pos l

theorem offsetAfter_eq (start : Nat) (marks : List Mark) :
    Mark.offsetAfter start marks = start + (marks.map Mark.size).sum := by
  induction marks generalizing start with
  | nil => rfl
  | cons m ms ih =>
    rw [List.map_cons, List.sum_cons, ← Nat.add_assoc]
    exact ih (start + m.size)

theorem sum_lexemes (b : Text) :
    (((Lexeme.all b).map Mark.ofLexeme).map Mark.size).sum = Text.size b := by
  have hoffset := Mark.offsetAfter_map_ofLexeme 0 (Lexeme.all b)
  rw [offsetAfter_eq, Lexeme.joined_all, Nat.zero_add, Nat.zero_add] at hoffset
  exact hoffset

theorem sum_allFrom (t : Text) (start : Nat) :
    ((Mark.allFrom start t).map Mark.size).sum = Text.size t - start := by
  rcases offset_cases t start with ⟨b, h⟩ | ⟨pos, c, cs, k, h, hk, hlt, rfl⟩ | hpast
  · have hend := h.size_eq
    rw [allFrom_stands h, sum_lexemes]
    omega
  · have hend := h.tail.size_eq
    obtain ⟨n, hn⟩ := Nat.exists_eq_add_of_le (Nat.le_of_lt hlt)
    have hstray : ((List.replicate n Mark.strayByte).map Mark.size).sum = n := by
      rw [List.map_replicate, List.sum_replicate_nat]
      exact Nat.mul_one n
    rw [allFrom_inside h hk hn.symm, List.map_append, List.sum_append, hstray, sum_lexemes]
    omega
  · rw [allFrom_past hpast, Nat.sub_eq_zero_of_le (Nat.le_of_lt hpast)]
    rfl

theorem onBoundary_offsetAfter {before : List Mark} (hstart : Text.onBoundary pos t = true)
    (hbefore : before <+: Mark.allFrom pos t) :
    Text.onBoundary (Mark.offsetAfter pos before) t = true := by
  have h := Stands.of_onBoundary hstart
  obtain ⟨after, hafter⟩ := hbefore
  rw [allFrom_stands h] at hafter
  obtain ⟨ls, ms, hall, rfl, -⟩ := List.map_eq_append_iff.mp hafter.symm
  have htext : Lexeme.joined ls ++ Lexeme.joined ms = Text.dropBytes pos t := by
    rw [← Lexeme.joined_append, ← hall, Lexeme.joined_all]
  rw [Mark.offsetAfter_map_ofLexeme]
  exact (Stands.skip (htext.symm ▸ h)).onBoundary

theorem strayBytes (hinside : Text.onBoundary pos t = false) (hbefore : pos < Text.size t) :
    ∃ n after, 0 < n ∧ (∀ k < n, Text.onBoundary (pos + k) t = false) ∧
      Text.onBoundary (pos + n) t = true ∧
      Mark.allFrom pos t = List.replicate n Mark.strayByte ++ after ∧
      ∀ fuel, Text.size (Text.dropBytes (pos + n) t) < fuel →
        run (Text.dropBytes (pos + n) t) fuel 0 =
          .ok (after, Text.size (Text.dropBytes (pos + n) t)) := by
  rcases offset_cases t pos with ⟨b, h⟩ | ⟨pos, c, cs, k, h, hk, hlt, rfl⟩ | hpast
  · rw [h.onBoundary] at hinside
    cases hinside
  · obtain ⟨n, hn⟩ := Nat.exists_eq_add_of_le (Nat.le_of_lt hlt)
    have hnext : pos + k + n = pos + c.utf8Size := by omega
    refine ⟨n, (Lexeme.all cs).map Mark.ofLexeme, by omega, ?_, ?_, allFrom_inside h hk hn.symm, ?_⟩
    · intro j hj
      rw [Nat.add_assoc]
      exact not_onBoundary h (by omega) (by omega)
    · rw [hnext]
      exact h.tail.onBoundary
    · intro fuel hfuel
      rw [hnext, h.tail.dropBytes] at hfuel ⊢
      exact run_stands (.start cs) hfuel
  · omega

/-- Scanning from any offset on comes to its end without a fault, with tokens that are not empty and
that take the text from there on. Tokens that start on a boundary end on one. An offset inside a
character brings single bytes up to the next boundary, and then the tokens of the rest of the text. -/
theorem run_total (t : Text) (start : Nat) :
    (∀ fuel, Text.size t - start < fuel →
      run t fuel start = .ok (Mark.allFrom start t, max start (Text.size t))) ∧
    (∀ m ∈ Mark.allFrom start t, 1 ≤ m.size) ∧
    ((Mark.allFrom start t).map Mark.size).sum = Text.size t - start ∧
    (Text.onBoundary start t = true → ∀ before, before <+: Mark.allFrom start t →
      Text.onBoundary (Mark.offsetAfter start before) t = true) ∧
    (Text.onBoundary start t = false → start < Text.size t → ∃ n after,
      0 < n ∧ (∀ k < n, Text.onBoundary (start + k) t = false) ∧
      Text.onBoundary (start + n) t = true ∧
      Mark.allFrom start t = List.replicate n Mark.strayByte ++ after ∧
      ∀ fuel, Text.size (Text.dropBytes (start + n) t) < fuel →
        run (Text.dropBytes (start + n) t) fuel 0 =
          .ok (after, Text.size (Text.dropBytes (start + n) t))) :=
  ⟨fun _ => run_eq t start, fun _ => size_pos_of_mem_allFrom, sum_allFrom t start,
    fun hstart _ => onBoundary_offsetAfter hstart, strayBytes⟩

example : run ['é', '1'] 3 1 =
    .ok ([Mark.strayByte, ⟨.integer, 1, none⟩], 3) := by
  decide +kernel

end ByteScanner

end Reparse
