import Reparse.Proofs.Reparsing
import Reparse.Proofs.TokenStream.Tiling

/-!
# Ranges of edits

An edit is refused for the first check that fails, and then nothing has changed. An edit that is
accepted cuts streams and texts only within their bounds and only between characters, whatever
mutations have left the tokens like.
-/

namespace Reparse

open Lexeme (Cuts joined spread sights)

structure Editable (t : Text) (start count : Nat) : Prop where
  size_le : start + count ≤ Text.size t
  start_boundary : Text.onBoundary start t = true
  stop_boundary : Text.onBoundary (start + count) t = true

inductive Refused (t : Text) (start count : Nat) : EditError → Prop
  | outOfBounds (hsize : Text.size t < start + count) :
      Refused t start count (.outOfBounds start (runEnd start count) (Text.size t))
  | start (hsize : start + count ≤ Text.size t) (hstart : Text.onBoundary start t = false) :
      Refused t start count (.notOnBoundary start)
  | stop (hsize : start + count ≤ Text.size t) (hstart : Text.onBoundary start t = true)
      (hstop : Text.onBoundary (start + count) t = false) :
      Refused t start count (.notOnBoundary (start + count))

theorem Refused.not_editable {t : Text} {start count : Nat} {e : EditError}
    (h : Refused t start count e) : ¬Editable t start count := by
  rintro ⟨hsize, hstart, hstop⟩
  cases h with
  | outOfBounds hbeyond => exact absurd hsize (Nat.not_le.mpr hbeyond)
  | start _ hinside => exact absurd hstart (Bool.eq_false_iff.mp hinside)
  | stop _ _ hinside => exact absurd hstop (Bool.eq_false_iff.mp hinside)

theorem Lexeme.exists_of_mem_spread {before : Text} {ls : List Lexeme} :
    ∀ x ∈ spread before ls, ∃ pre post, ls = pre ++ x.2 :: post ∧ x.1 = before ++ joined pre := by
  induction ls generalizing before with
  | nil => exact fun x hx => absurd hx List.not_mem_nil
  | cons l ls ih =>
    intro x hx
    rcases List.mem_cons.mp hx with rfl | hx
    · exact ⟨[], ls, rfl, (List.append_nil before).symm⟩
    · obtain ⟨pre, post, rfl, hbefore⟩ := ih x hx
      refine ⟨l :: pre, post, rfl, ?_⟩
      rw [hbefore, Lexeme.joined_cons, List.append_assoc]

theorem FoundLexeme.Are.exists_cut {lines : Bool} {found : List FoundLexeme} {before : Text}
    {ms : List Lexeme} (h : FoundLexeme.Are lines found before ms) (rest : Text) :
    ∀ f ∈ found, ∃ a b, before ++ joined ms ++ rest = a ++ f.lexeme.text ++ b ∧
      Text.size a = f.point.offset := by
  intro f hf
  have hmem := List.mem_map_of_mem
    (f := fun f : FoundLexeme => (f.lexeme, f.placement.seen lines)) hf
  rw [h] at hmem
  obtain ⟨⟨b, l⟩, hspread, hsame⟩ := List.mem_map.mp hmem
  obtain ⟨hlexeme, hplacement⟩ := Prod.mk.inj hsame
  obtain ⟨pre, post, rfl, hbefore⟩ := Lexeme.exists_of_mem_spread _ hspread
  refine ⟨b, joined post ++ rest, ?_, Placement.start_of_seen hplacement⟩
  have hbefore : b = before ++ joined pre := hbefore
  rw [← hlexeme, hbefore, Lexeme.joined_append, Lexeme.joined_cons]
  simp only [List.append_assoc]

namespace TokenStream

variable {lines : Bool} {s s' : TokenStream} {ls : List Lexeme} {start count : Nat} {inserted : Text}

theorem checkEdit_spec (hsize : Text.size s.source ≤ maxCoordinate)
    (hresult : start + count ≤ Text.size s.source →
      Text.size s.source - count + Text.size inserted ≤ maxCoordinate) :
    match s.checkEdit start count inserted with
    | .ok _ => Editable s.source start count
    | .error e => Refused s.source start count e := by
  unfold checkEdit
  by_cases hbounds : Text.size s.source < start + count
  · have hstop : Text.size s.source < runEnd start count := by
      unfold maxCoordinate at hsize
      unfold runEnd
      omega
    simp only [if_pos hstop]
    exact .outOfBounds hbounds
  · have hbounds := Nat.not_lt.mp hbounds
    have hfits := Nat.not_lt.mpr (hresult hbounds)
    rw [runEnd_eq (Nat.le_trans (Nat.min_le_left ..) (Nat.le_trans hbounds hsize))]
    simp only [if_neg (Nat.not_lt.mpr hbounds), if_neg hfits]
    cases hstart : Text.onBoundary start s.source with
    | false => exact .start hbounds hstart
    | true =>
      cases hstop : Text.onBoundary (start + count) s.source with
      | false => exact .stop hbounds hstart hstop
      | true => exact ⟨hbounds, hstart, hstop⟩

/-- The stream `s` has been read to its end, and an edit of its bytes from `start` up to `stop` cuts
`number` tokens again, counted from index `first`. Every index is one of a token, every offset is
one between characters, and they come in order. The source afterwards is `new`. -/
structure InRange (s : TokenStream) (start stop : Nat) (inserted new : Text)
    (first number : Nat) : Prop where
  affected : s.affected start stop = (first, number)
  first_lt : first < s.tokens.size
  last_le : first + number ≤ s.tokens.size
  start_le : (s.startOf first).1 ≤ start
  le_stop : stop ≤ (s.endOf first number).1
  stop_le : (s.endOf first number).1 ≤ Text.size s.source
  start_boundary : Text.onBoundary (s.startOf first).1 s.source = true
  stop_boundary : Text.onBoundary (s.endOf first number).1 s.source = true
  kept_le : first + number + (s.rescanned first number
    (s.widenedText start stop first number inserted)).2.length ≤ s.tokens.size
  found : ∀ f ∈ (s.rescanned first number
      (s.widenedText start stop first number inserted)).1,
    ∃ a b, new = a ++ f.lexeme.text ++ b ∧ Text.size a = f.point.offset

section Region

variable {before old behind : Text} {ts us vs : List Token} {as bs cs : List Lexeme} {p q : Text}
  (h : s.Region before old behind ts us vs as bs cs p q) (hparted : s.Parted lines ts us vs as bs cs)
  (hsource : s.source = before ++ old ++ behind)
include h hparted

theorem Region.source_mutate (hrest : s.point.rest = []) (hnonempty : s.tokens.isEmpty = false)
    (inserted : Text) :
    (s.mutate ts.length us.length (p ++ inserted ++ q)).2.source = before ++ inserted ++ behind := by
  have hsize := h.size_eq
  rw [mutate_of_nonempty hrest hnonempty (by omega), source_exchange]
  refine (hparted.exchangedSource _).trans ?_
  rw [h.before_eq, h.behind_eq]
  simp only [List.append_assoc]

include hsource

theorem Region.inRange (hnonempty : s.tokens.isEmpty = false) :
    s.InRange (Text.size before) (Text.size (before ++ old)) inserted
      (before ++ inserted ++ behind) ts.length us.length := by
  obtain ⟨hp, hq⟩ := h.slices hparted hsource
  have hsize := h.size_eq
  have htext : s.widenedText (Text.size before) (Text.size (before ++ old)) ts.length us.length
      inserted = p ++ inserted ++ q := by
    rw [widenedText, hp, hq]
  have hstart := hparted.startOf.offset
  have hstop := hparted.endOf.offset
  have hreach : joined as ++ joined bs = before ++ old ++ q := by
    rw [h.exchanged, h.before_eq]
    simp only [List.append_assoc]
  have hold : s.source = joined as ++ joined bs ++ joined cs := hparted.source
  have hpositive : 0 < s.tokens.size :=
    Nat.pos_of_ne_zero fun hzero => by simp [Array.isEmpty, hzero] at hnonempty
  refine
    { affected := h.affected
      first_lt := ?_
      last_le := by omega
      start_le := ?_
      le_stop := ?_
      stop_le := ?_
      start_boundary := ?_
      stop_boundary := ?_
      kept_le := ?_
      found := ?_ }
  · have hfirst : s.firstAffected (Text.size before) = ts.length := congrArg Prod.fst h.affected
    have hcount := s.countStarts_le_size (· ≤ Text.size before)
    rcases firstAffected_spec s (Text.size before) with hzero | ⟨hlt, -⟩
    · omega
    · omega
  · rw [hstart, h.before_eq, Text.size_append]
    exact Nat.le_add_right ..
  · rw [hstop, hreach, Text.size_append _ q]
    exact Nat.le_add_right ..
  · rw [hstop, hold, Text.size_append _ (joined cs)]
    exact Nat.le_add_right ..
  · rw [hstart, hold, List.append_assoc]
    exact Text.onBoundary_size_append ..
  · rw [hstop, hold]
    exact Text.onBoundary_size_append ..
  · have hkept := (s.rescanned_suffix ts.length us.length (p ++ inserted ++ q)).length_le
    have hlength : s.tokens.toList.length = s.tokens.size := Array.length_toList
    rw [List.length_drop, hlength] at hkept
    rw [htext]
    omega
  · obtain ⟨gone, stay, ds, es, ms, -, -, -, -, hfound, hcuts, -⟩ :=
      hparted.resumes (p ++ inserted ++ q)
    have hnew : before ++ inserted ++ behind = joined as ++ joined ms ++ joined es := by
      rw [h.before_eq, h.behind_eq, List.append_assoc (joined as) (joined ms), ← hcuts.joined]
      simp only [List.append_assoc]
    rw [htext, hnew]
    exact hfound.exists_cut (joined es)

end Region

theorem Covers.edit_spec (h : s.Covers lines ls) (hsize : Text.size s.source ≤ maxCoordinate)
    {m : Mutation} (hedit : s.edit start count inserted = .ok m s') :
    s'.source = Text.splice start (start + count) inserted s.source ∧
      (s.readAllMuted.tokens.isEmpty = false → ∃ first number,
        s.readAllMuted.InRange start (start + count) inserted s'.source first number ∧
        (m, s') = s.readAllMuted.mutate first number
          (s.readAllMuted.widenedText start (start + count) first number inserted)) := by
  obtain ⟨ms, hms, hrest⟩ := h.readAllMuted
  have hsource := s.source_readAllMuted
  obtain ⟨hcheck, hresult⟩ := checkEdit_of_edit hedit
  have hend := runEnd_eq (Nat.le_trans (checkEdit_ok hcheck).1 hsize)
  obtain ⟨before, old, behind, hparts, rfl, hstop, -⟩ := exists_edited hcheck hsize
  rw [hparts] at hsource
  rw [← hend, ← hstop, hparts, Text.splice_append]
  rw [← hstop] at hresult
  generalize s.readAllMuted = r at hms hrest hsource hresult ⊢
  cases hempty : r.tokens.isEmpty with
  | true =>
    have hnil : [] = r.source := by
      rw [← hms.covered hrest, Array.isEmpty_iff.mp hempty]
      rfl
    rw [hsource, List.append_assoc, eq_comm, List.append_eq_nil_iff,
      List.append_eq_nil_iff] at hnil
    obtain ⟨rfl, rfl, rfl⟩ := hnil
    rw [widenedMutation, if_pos hempty, mutate_of_empty hrest hempty] at hresult
    have hs' : s' = _ := congrArg Prod.snd hresult
    rw [hs', List.nil_append, List.append_nil]
    exact ⟨source_readMore .., fun h => absurd h Bool.noConfusion⟩
  | false =>
    have hjoined := hms.source
    rw [hrest, List.append_nil] at hjoined
    obtain ⟨ts, us, vs, as, bs, cs, p, q, rfl, hregion⟩ :=
      hms.region (hjoined.symm.trans hsource)
    have hparted := hms.parted hjoined hregion.tokens hregion.first hregion.second
    obtain ⟨hp, hq⟩ := hregion.slices hparted hsource
    have hnew := hregion.source_mutate hparted hrest hempty inserted
    rw [hregion.widenedMutation hparted hsource hempty] at hresult
    have hs' : s' = _ := congrArg Prod.snd hresult
    rw [← hs'] at hnew
    refine ⟨hnew, fun _ => ⟨ts.length, us.length, ?_, ?_⟩⟩
    · rw [hnew]
      exact hregion.inRange hparted hsource hempty
    · rw [widenedText, hp, hq]
      exact hresult

end TokenStream

theorem Document.edit_refused {d : Document} {start count : Nat} {inserted : Text} {e : EditError}
    {s' : TokenStream} (h : d.stream.edit start count inserted = .error e s') :
    d.edit start count inserted = .error e d := by
  obtain ⟨-, rfl⟩ := TokenStream.edit_refused h
  unfold Document.edit
  rw [h]

namespace Session

/-- What an edit does at any time, as long as it does not make the text too large. An edit that is
refused leaves the stream, and a document that has this stream, as they were. -/
theorem edit_run (source : Text) (ops : List SessionOp) (start count : Nat) (inserted : Text)
    (hsizes : ∀ done, done <+: ops →
      Text.size ((ofSource source).run done).stream.source ≤ maxCoordinate)
    (hresult : start + count ≤ Text.size ((ofSource source).run ops).stream.source →
      Text.size ((ofSource source).run ops).stream.source - count + Text.size inserted ≤
        maxCoordinate) :
    let s := ((ofSource source).run ops).stream
    ((∃ m s', s.edit start count inserted = .ok m s') ↔ Editable s.source start count) ∧
      (∀ m s', s.edit start count inserted = .ok m s' →
        s'.source = Text.splice start (start + count) inserted s.source ∧
        (s.readAllMuted.tokens.isEmpty = false → ∃ first number,
          s.readAllMuted.InRange start (start + count) inserted s'.source first number ∧
          (m, s') = s.readAllMuted.mutate first number
            (s.readAllMuted.widenedText start (start + count) first number inserted))) ∧
      ∀ e s', s.edit start count inserted = .error e s' →
        Refused s.source start count e ∧ s' = s ∧
          ∀ d : Document, d.stream = s → d.edit start count inserted = .error e d := by
  intro s
  have hvalid := valid_ofSource source
  have hstart := TokenStream.covers_ofSource false source
  obtain ⟨ms, hms⟩ := covers_run hvalid hstart ops fun done op hdone _ =>
    Text.fits_of_size (hsizes (done ++ [op]) hdone)
  have hsize : Text.size s.source ≤ maxCoordinate := hsizes ops List.prefix_rfl
  have hcheck := TokenStream.checkEdit_spec hsize hresult
  refine ⟨⟨?_, fun heditable => ?_⟩, fun m s' => hms.edit_spec hsize, fun e s' hedit => ?_⟩
  · rintro ⟨m, s', hedit⟩
    rw [(TokenStream.checkEdit_of_edit hedit).1] at hcheck
    exact hcheck
  · cases h : s.checkEdit start count inserted with
    | error e =>
      rw [h] at hcheck
      exact absurd heditable (Refused.not_editable hcheck)
    | ok u => exact ⟨_, _, TokenStream.edit_of_ok h⟩
  · obtain ⟨hrefused, hsame⟩ := TokenStream.edit_refused hedit
    rw [hrefused] at hcheck
    exact ⟨hcheck, hsame, fun d hd => Document.edit_refused (hd ▸ hedit)⟩

theorem edit_run_neighbours :
    let s := ((ofSource ['a', ' ', 'b']).run [.mutate 1 1 []]).stream
    ∃ m s', s.edit 1 1 ['c'] = .ok m s' ∧ s'.source = ['a', 'c'] := by
  have hsource : ((ofSource ['a', ' ', 'b']).run [.mutate 1 1 []]).stream.source = ['a', 'b'] := by
    decide +kernel
  have hfits : ∀ done, done <+: [SessionOp.mutate 1 1 []] → Text.Addressable
      ((ofSource ['a', ' ', 'b']).run done).stream.source :=
    addressable_of_take (by decide +kernel)
  obtain ⟨haccepted, hedited, -⟩ := edit_run ['a', ' ', 'b'] [.mutate 1 1 []] 1 1 ['c']
    (fun done hdone => (hfits done hdone).size_le) (by rw [hsource]; decide)
  rw [hsource] at haccepted
  obtain ⟨m, s', hedit⟩ := haccepted.mpr ⟨by decide, by decide, by decide⟩
  have hresult := (hedited m s' hedit).1
  rw [hsource] at hresult
  exact ⟨m, s', hedit, hresult⟩

end Session

end Reparse
