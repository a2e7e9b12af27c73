import Reparse.Proofs.MemoExactness
import Reparse.Proofs.Parser.Builds

/-!
# Footprints

What a run leaves behind in the memo. A run never goes back, and never beyond the last token. It
touches only what is filed under tokens from its start on; and of what is filed under tokens that it
has not passed, it never touches what belongs to a definition.

Two parsers agree if they do the same from every such state and leave such a footprint. A rule that
agrees with itself whatever is nested in it, as long as the nested rules agree further along, enters
them further along only.
-/

namespace Reparse

open Reparse.Parser

variable {tokens : Array Token} {next : TokenId}

def Entry.Fits (tokens : Array Token) (key : TokenId) (e : Entry) : Prop :=
  ∀ i, idAt tokens i = some key → e.holdsAt (idAt tokens) i = true →
    i + e.consumed ≤ tokens.size

structure Bounded (tokens : Array Token) (s : ParseState) : Prop where
  nodup : (tokens.toList.map Token.id).Nodup
  cursor : s.cursor ≤ tokens.size
  memo : s.memo.Keeps (Entry.Fits tokens)

/-- What a run from `s` to `s'` has done. -/
structure Footprint (tokens : Array Token) (s s' : ParseState) : Prop where
  bounded : Bounded tokens s'
  onward : s.cursor ≤ s'.cursor
  behind : ∀ key, (∀ i, s.cursor ≤ i → idAt tokens i ≠ some key) →
    s'.memo.bucket key = s.memo.bucket key
  ahead : ∀ i key flags, s'.cursor ≤ i → idAt tokens i = some key →
    Leads tokens Grammar.startsDefinition i →
      s'.memo.get? key .definition flags = s.memo.get? key .definition flags

namespace Footprint

variable {s s' s'' : ParseState}

theorem of_still (hs : Bounded tokens s) (hcursor : s'.cursor = s.cursor)
    (hmemo : s'.memo = s.memo) : Footprint tokens s s' where
  bounded := ⟨hs.nodup, by rw [hcursor]; exact hs.cursor, by rw [hmemo]; exact hs.memo⟩
  onward := Nat.le_of_eq hcursor.symm
  behind _ _ := by rw [hmemo]
  ahead _ _ _ _ _ _ := by rw [hmemo]

theorem of_start {r : ParseState} (h : Footprint tokens r s') (hcursor : r.cursor = s.cursor)
    (hmemo : r.memo = s.memo) : Footprint tokens s s' where
  bounded := h.bounded
  onward := by rw [← hcursor]; exact h.onward
  behind key hkey := by
    rw [← hmemo]
    exact h.behind key fun i hi => hkey i (hcursor ▸ hi)
  ahead := by rw [← hmemo]; exact h.ahead

theorem trans (h : Footprint tokens s s') (h' : Footprint tokens s' s'') :
    Footprint tokens s s'' where
  bounded := h'.bounded
  onward := Nat.le_trans h.onward h'.onward
  behind key hkey := by
    rw [h'.behind key fun i hi => hkey i (Nat.le_trans h.onward hi), h.behind key hkey]
  ahead i key flags hi hkey hleads := by
    rw [h'.ahead i key flags hi hkey hleads,
      h.ahead i key flags (Nat.le_trans h'.onward hi) hkey hleads]

end Footprint

theorem exists_of_mem_stretch {i j : Nat} {t : Token} (h : t ∈ stretch tokens i j) :
    ∃ k, i ≤ k ∧ k < j ∧ tokens[k]? = some t := by
  obtain ⟨n, hn⟩ := List.mem_iff_getElem?.mp h
  rw [stretch, List.getElem?_drop] at hn
  have hlt : i + n < j := by
    have hlength := (List.getElem?_eq_some_iff.mp hn).1
    rw [List.length_take] at hlength
    omega
  rw [List.getElem?_take_of_lt hlt, Array.getElem?_toList] at hn
  exact ⟨i + n, Nat.le_add_right .., hlt, hn⟩

theorem stretch_cons {i j : Nat} {t : Token} (hij : i < j) (ht : tokens[i]? = some t) :
    stretch tokens i j = t :: stretch tokens (i + 1) j := by
  rw [← stretch_append (Nat.le_succ i) hij, stretch_succ (Nat.le_refl i) ht, stretch_self]
  rfl

theorem not_mem_stretch {i j k : Nat} {key : TokenId}
    (hnodup : (tokens.toList.map Token.id).Nodup) (hkey : idAt tokens k = some key)
    (hk : k < i ∨ j ≤ k) : key ∉ (stretch tokens i j).map Token.id := by
  intro hmem
  obtain ⟨t, ht, rfl⟩ := List.mem_map.mp hmem
  obtain ⟨m, him, hmj, hm⟩ := exists_of_mem_stretch ht
  have hmk : m = k := idAt_inj hnodup (idAt_eq_some hm) hkey
  omega

structure Passes (tokens : Array Token) (s s' : ParseState) : Prop where
  le : s.cursor ≤ s'.cursor
  within : s'.cursor ≤ tokens.size
  memo : s'.memo = (s.memo.forget (stretch tokens s.cursor s'.cursor)).2
  counts : s'.counts = { s.counts with
    evicted := s.counts.evicted + (s.memo.forget (stretch tokens s.cursor s'.cursor)).1 }

namespace Passes

variable {s s' s'' : ParseState}

theorem refl (h : s.cursor ≤ tokens.size) : Passes tokens s s :=
  ⟨Nat.le_refl _, h, by rw [stretch_self]; rfl, by rw [stretch_self]; rfl⟩

theorem trans (h : Passes tokens s s') (h' : Passes tokens s' s'') : Passes tokens s s'' := by
  have hforget := Memo.forget_append (m := s.memo) (stretch tokens s.cursor s'.cursor)
    (stretch tokens s'.cursor s''.cursor)
  rw [stretch_append h.le h'.le, ← h.memo] at hforget
  refine ⟨Nat.le_trans h.le h'.le, h'.within, ?_, ?_⟩
  · rw [h'.memo, hforget]
  · rw [h'.counts, h.counts, hforget, Nat.add_assoc]

theorem congr {r r' : ParseState} (h : Passes tokens s s')
    (hr : r.cursor = s.cursor ∧ r.memo = s.memo ∧ r.counts = s.counts)
    (hr' : r'.cursor = s'.cursor ∧ r'.memo = s'.memo ∧ r'.counts = s'.counts) :
    Passes tokens r r' := by
  obtain ⟨hcursor, hmemo, hcounts⟩ := hr
  obtain ⟨hcursor', hmemo', hcounts'⟩ := hr'
  constructor
  · rw [hcursor, hcursor']
    exact h.le
  · rw [hcursor']
    exact h.within
  · rw [hcursor, hcursor', hmemo, hmemo']
    exact h.memo
  · rw [hcursor, hcursor', hmemo, hcounts, hcounts']
    exact h.counts

theorem bucket (h : Passes tokens s s') (key : TokenId) :
    s'.memo.bucket key =
      if key ∈ (stretch tokens s.cursor s'.cursor).map Token.id then [] else s.memo.bucket key := by
  rw [h.memo, Memo.bucket_forget]

theorem bucket_eq_nil (h : Passes tokens s s') {i : Nat} {t : Token} (hi : s.cursor ≤ i)
    (hi' : i < s'.cursor) (ht : tokens[i]? = some t) : s'.memo.bucket t.id = [] := by
  rw [h.bucket, if_pos (List.mem_map_of_mem (mem_stretch hi hi' ht))]

theorem bucket_eq (h : Passes tokens s s') (hs : Bounded tokens s) {i : Nat} {key : TokenId}
    (hkey : idAt tokens i = some key) (hi : i < s.cursor ∨ s'.cursor ≤ i) :
    s'.memo.bucket key = s.memo.bucket key := by
  rw [h.bucket, if_neg (not_mem_stretch hs.nodup hkey hi)]

theorem bounded (h : Passes tokens s s') (hs : Bounded tokens s) : Bounded tokens s' :=
  ⟨hs.nodup, h.within, by rw [h.memo]; exact hs.memo.forget _⟩

theorem behind (h : Passes tokens s s') {key : TokenId}
    (hkey : ∀ i, s.cursor ≤ i → idAt tokens i ≠ some key) :
    s'.memo.bucket key = s.memo.bucket key := by
  rw [h.bucket, if_neg]
  intro hmem
  obtain ⟨t, ht, rfl⟩ := List.mem_map.mp hmem
  obtain ⟨i, hi, -, hi'⟩ := exists_of_mem_stretch ht
  exact hkey i hi (idAt_eq_some hi')

theorem footprint (h : Passes tokens s s') (hs : Bounded tokens s) : Footprint tokens s s' where
  bounded := h.bounded hs
  onward := h.le
  behind _ hkey := h.behind hkey
  ahead _ _ flags hi hkey _ := Memo.get?_eq_of_bucket (h.bucket_eq hs hkey (.inr hi)) _ flags

theorem taken_back (h : Passes tokens s s') (hs : Bounded tokens s) {r : ParseState}
    (hcursor : r.cursor = s.cursor) (hmemo : r.memo = s'.memo)
    (hleads : ∀ i, s.cursor ≤ i → i < s'.cursor → ¬Leads tokens Grammar.startsDefinition i) :
    Footprint tokens s r where
  bounded := ⟨hs.nodup, by rw [hcursor]; exact hs.cursor, by rw [hmemo]; exact (h.bounded hs).memo⟩
  onward := Nat.le_of_eq hcursor.symm
  behind _ hkey := by rw [hmemo, h.behind hkey]
  ahead i key flags hi hkey hdefinition := by
    rw [hcursor] at hi
    have hpassed : s'.cursor ≤ i := Nat.le_of_not_lt fun hlt => hleads i hi hlt hdefinition
    rw [hmemo]
    exact Memo.get?_eq_of_bucket (h.bucket_eq hs hkey (.inr hpassed)) _ flags

end Passes

theorem passes_past {s : ParseState} {t : Token} (ht : tokens[s.cursor]? = some t) :
    Passes tokens s (past t s) := by
  have hstretch : stretch tokens s.cursor (s.cursor + 1) = [t] := by
    rw [stretch_cons (Nat.lt_succ_self _) ht, stretch_self]
  refine ⟨Nat.le_succ _, (Array.getElem?_eq_some_iff.mp ht).1, ?_, ?_⟩
  · change _ = (s.memo.forget (stretch tokens s.cursor (s.cursor + 1))).2
    rw [hstretch]
    rfl
  · change _ = { s.counts with
      evicted := s.counts.evicted + (s.memo.forget (stretch tokens s.cursor (s.cursor + 1))).1 }
    rw [hstretch]
    rfl

theorem passes_consumeMany {c : ParseContext} {n : Nat} {s : ParseState}
    (h : s.cursor + n ≤ c.tokens.size) :
    Passes c.tokens s ((consumeMany n).eval c s).2 ∧
      ((consumeMany n).eval c s).2.cursor = s.cursor + n := by
  induction n generalizing s with
  | zero => exact ⟨.refl h, rfl⟩
  | succ n ih =>
    have ht : c.tokens[s.cursor]? = some c.tokens[s.cursor] := Array.getElem?_eq_getElem (by omega)
    have hcursor : (past c.tokens[s.cursor] s).cursor = s.cursor + 1 := rfl
    obtain ⟨hpasses, hend⟩ := ih (s := past c.tokens[s.cursor] s) (by omega)
    rw [eval_consumeMany_succ n ht]
    exact ⟨(passes_past ht).trans hpasses, by omega⟩

theorem passes_consume {c : ParseContext} {s : ParseState} (h : s.cursor ≤ c.tokens.size) :
    Passes c.tokens s (consume.eval c s).2 ∧
      (consume.eval c s).1 = c.tokens[nextReal c.tokens s.cursor]? ∧
      (consume.eval c s).2.cursor = if (consume.eval c s).1.isSome
        then nextReal c.tokens s.cursor + 1 else s.cursor := by
  rw [eval_consume]
  cases ht : c.tokens[nextReal c.tokens s.cursor]? with
  | none => exact ⟨(Passes.refl h).congr ⟨rfl, rfl, rfl⟩ ⟨rfl, rfl, rfl⟩, rfl, rfl⟩
  | some t =>
    have hlt := (Array.getElem?_eq_some_iff.mp ht).1
    have hle := le_nextReal c.tokens s.cursor
    obtain ⟨hpasses, hend⟩ := passes_consumeMany (c := c)
      (n := nextReal c.tokens s.cursor + 1 - s.cursor) (s := looked c.tokens s)
      (by rw [looked_cursor]; omega)
    rw [looked_cursor] at hend
    refine ⟨hpasses.congr ⟨rfl, rfl, rfl⟩ ⟨rfl, rfl, rfl⟩, rfl, ?_⟩
    rw [if_pos (Option.isSome_some), hend]
    omega

theorem passes_consumeTrivia {c : ParseContext} {s : ParseState} (h : s.cursor ≤ c.tokens.size) :
    Passes c.tokens s (consumeTrivia.eval c s).2 ∧
      (consumeTrivia.eval c s).2.cursor = nextReal c.tokens s.cursor := by
  have hle := le_nextReal c.tokens s.cursor
  have hsize := nextReal_le_size h
  obtain ⟨hpasses, hend⟩ := passes_consumeMany (c := c)
    (n := nextReal c.tokens s.cursor - s.cursor) (s := looked c.tokens s)
    (by rw [looked_cursor]; omega)
  rw [looked_cursor] at hend
  rw [eval_consumeTrivia]
  exact ⟨hpasses.congr ⟨rfl, rfl, rfl⟩ ⟨rfl, rfl, rfl⟩, by omega⟩

end Reparse
