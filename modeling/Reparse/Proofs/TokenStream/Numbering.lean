import Reparse.Proofs.Parser.Validity
import Reparse.TokenStream.Edit

/-!
# Numbering of tokens

Whatever is done to a stream, its tokens have numbers of their own, tokens it had before stay in
order, and tokens that come in are numbered from the next number on.
-/

namespace Reparse

theorem ReadPoint.cut?_of_nil {p : ReadPoint} (h : p.rest = []) : p.cut? = none := by
  simp only [ReadPoint.cut?, h]

theorem ReadPoint.cut?_of_cons {p : ReadPoint} {c : Char} {cs : Text} (h : p.rest = c :: cs) :
    p.cut? = some (Lexeme.leading c cs, ⟨p.offset + (Lexeme.leading c cs).size,
      p.position.advance (Lexeme.leading c cs).text,
      cs.drop (Lexeme.leading c cs).rest.length⟩) := by
  simp only [cut?, h]

namespace TokenStream

variable {s s' s'' : TokenStream}

structure Numbered (s : TokenStream) : Prop where
  nodup : (s.tokens.toList.map Token.id).Nodup
  lt_next : ∀ t ∈ s.tokens.toList, t.id < s.nextId

/-- The second stream can have come from the first one. -/
structure Follows (s s' : TokenStream) : Prop where
  next_le : s.nextId ≤ s'.nextId
  sublist : (below s.nextId s'.tokens.toList).Sublist s.tokens.toList
  numbered : s'.Numbered

theorem Numbered.congr (h : s.Numbered) (htokens : s'.tokens = s.tokens)
    (hnext : s'.nextId = s.nextId) : s'.Numbered := by
  refine ⟨?_, ?_⟩
  · rw [htokens]
    exact h.nodup
  · rw [htokens, hnext]
    exact h.lt_next

theorem Follows.refl (h : s.Numbered) : s.Follows s :=
  ⟨Nat.le_refl _, List.filter_sublist, h⟩

theorem Follows.congr {r r' : TokenStream} (h : s.Follows s') (htokens : r.tokens = s.tokens)
    (hnext : r.nextId = s.nextId) (htokens' : r'.tokens = s'.tokens)
    (hnext' : r'.nextId = s'.nextId) : r.Follows r' := by
  refine ⟨?_, ?_, h.numbered.congr htokens' hnext'⟩
  · rw [hnext, hnext']
    exact h.next_le
  · rw [hnext, htokens, htokens']
    exact h.sublist

theorem Follows.trans (h : s.Follows s') (h' : s'.Follows s'') : s.Follows s'' := by
  refine ⟨Nat.le_trans h.next_le h'.next_le, ?_, h'.numbered⟩
  rw [← below_below h.next_le]
  exact (h'.sublist.filter _).trans h.sublist

theorem Follows.of_splice (pre fresh post : List Token) (h : s.Numbered)
    (hold : (pre ++ post).Sublist s.tokens.toList)
    (hfresh : fresh.map Token.id = List.range' s.nextId fresh.length)
    (hnext : s'.nextId = s.nextId + fresh.length)
    (htokens : s'.tokens.toList = pre ++ fresh ++ post) : s.Follows s' := by
  have hlt : ∀ t ∈ pre ++ post, t.id < s.nextId := fun t ht => h.lt_next t (hold.subset ht)
  have hge : ∀ t ∈ fresh, s.nextId ≤ t.id ∧ t.id < s.nextId + fresh.length := by
    intro t ht
    have hmem : t.id ∈ fresh.map Token.id := List.mem_map_of_mem ht
    rw [hfresh, List.mem_range'_1] at hmem
    exact hmem
  refine ⟨hnext ▸ Nat.le_add_right .., ?_, ?_, ?_⟩
  -- Of the tokens that are there now, the old ones are those below the old next number.
  · have hnone : below s.nextId fresh = [] :=
      List.filter_eq_nil_iff.mpr fun t ht => by simpa using (hge t ht).1
    have hbelow : below s.nextId s'.tokens.toList = below s.nextId (pre ++ post) := by
      simp only [below, htokens, List.filter_append] at hnone ⊢
      rw [hnone, List.append_nil]
    rw [hbelow]
    exact List.filter_sublist.trans hold
  · have hperm : (pre ++ fresh ++ post).Perm ((pre ++ post) ++ fresh) := by
      rw [List.append_assoc, List.append_assoc]
      exact List.perm_append_comm.append_left pre
    rw [htokens, (hperm.map Token.id).nodup_iff, List.map_append, List.nodup_append]
    refine ⟨h.nodup.sublist (hold.map _), ?_, ?_⟩
    · rw [hfresh]
      exact List.nodup_range'
    · intro a ha b hb hab
      obtain ⟨t, ht, rfl⟩ := List.mem_map.mp ha
      obtain ⟨u, hu, rfl⟩ := List.mem_map.mp hb
      exact absurd (hlt t ht) (Nat.not_lt.mpr (hab ▸ (hge u hu).1))
  · intro t ht
    rw [htokens, List.append_assoc, List.mem_append, List.mem_append] at ht
    rw [hnext]
    rcases ht with ht | ht | ht
    · exact Nat.lt_of_lt_of_le (hlt t (List.mem_append_left _ ht)) (Nat.le_add_right ..)
    · exact (hge t ht).2
    · exact Nat.lt_of_lt_of_le (hlt t (List.mem_append_right _ ht)) (Nat.le_add_right ..)

theorem nextId_make (s : TokenStream) (p : ReadPoint) (l : Lexeme) :
    (s.make p l).2.nextId = s.nextId + 1 := by
  simp [make, nextId, Timeline.register]

@[simp] theorem tokens_reportFault (s : TokenStream) (t : Token) (fault : Option Code) :
    (s.reportFault t fault).tokens = s.tokens := by
  cases fault <;> rfl

@[simp] theorem nextId_reportFault (s : TokenStream) (t : Token) (fault : Option Code) :
    (s.reportFault t fault).nextId = s.nextId := by
  cases fault <;> rfl

theorem read_of_cut {l : Lexeme} {next : ReadPoint} (hcut : s.point.cut? = some (l, next)) :
    s.read.2.tokens = s.tokens.push ⟨s.nextId, l.kind, l.text⟩ ∧
      s.read.2.nextId = s.nextId + 1 := by
  have hmake := nextId_make s s.point l
  have hfault := nextId_reportFault (s.make s.point l).2 (s.make s.point l).1 l.fault
  have htokens := tokens_reportFault (s.make s.point l).2 (s.make s.point l).1 l.fault
  unfold read
  simp only [hcut]
  exact ⟨rfl, hfault.trans hmake⟩

theorem follows_read (h : s.Numbered) : s.Follows s.read.2 := by
  cases hcut : s.point.cut? with
  | none =>
    have hread : s.read.2 = s := by simp only [read, hcut]
    rw [hread]
    exact .refl h
  | some cut =>
    obtain ⟨l, next⟩ := cut
    obtain ⟨htokens, hnext⟩ := read_of_cut hcut
    refine .of_splice s.tokens.toList [⟨s.nextId, l.kind, l.text⟩] [] h ?_ rfl hnext ?_
    · rw [List.append_nil]
    · rw [htokens, Array.toList_push, List.append_nil]

theorem readMore_succ (n : Nat) (s : TokenStream) :
    readMore (n + 1) s = if s.read.1.isSome then readMore n s.read.2 else s.read.2 := by
  simp only [readMore]
  rcases s.read with ⟨_ | t, s'⟩ <;> rfl

theorem tokens_readMore (n : Nat) (s : TokenStream) :
    ∃ fresh, (readMore n s).tokens.toList = s.tokens.toList ++ fresh ∧
      fresh.map Token.id = List.range' s.nextId fresh.length ∧
      (readMore n s).nextId = s.nextId + fresh.length := by
  induction n generalizing s with
  | zero => exact ⟨[], (List.append_nil _).symm, rfl, rfl⟩
  | succ n ih =>
    rw [readMore_succ]
    cases hcut : s.point.cut? with
    | none =>
      have hread : s.read = (none, s) := by simp only [read, hcut]
      rw [hread]
      exact ⟨[], (List.append_nil _).symm, rfl, rfl⟩
    | some cut =>
      obtain ⟨l, next⟩ := cut
      obtain ⟨htokens, hnext⟩ := read_of_cut hcut
      have hsome : s.read.1.isSome = true := by simp only [read, hcut, Option.isSome_some]
      obtain ⟨fresh, hfresh, hids, hlength⟩ := ih s.read.2
      rw [htokens, Array.toList_push] at hfresh
      rw [hnext] at hids hlength
      refine ⟨⟨s.nextId, l.kind, l.text⟩ :: fresh, ?_, ?_, ?_⟩
      · rw [if_pos hsome, hfresh, List.append_assoc]
        rfl
      · rw [List.map_cons, hids, List.length_cons, List.range'_succ]
      · rw [if_pos hsome, hlength, List.length_cons, Nat.add_right_comm]
        rfl

theorem length_rest_readMore (n : Nat) (s : TokenStream) :
    (readMore n s).point.rest.length ≤ s.point.rest.length - n := by
  induction n generalizing s with
  | zero => exact Nat.le_refl _
  | succ n ih =>
    rw [readMore_succ]
    cases hrest : s.point.rest with
    | nil =>
      have hcut := ReadPoint.cut?_of_nil hrest
      have hread : s.read = (none, s) := by simp only [read, hcut]
      rw [hread]
      exact Nat.le_trans (Nat.le_of_eq (congrArg List.length hrest)) (Nat.zero_le _)
    | cons c cs =>
      have hcut := ReadPoint.cut?_of_cons hrest
      have hsome : s.read.1.isSome = true := by simp only [read, hcut, Option.isSome_some]
      have hnext : s.read.2.point.rest = cs.drop (Lexeme.leading c cs).rest.length := by
        simp only [read, hcut]
      have hle := ih s.read.2
      rw [hnext, List.length_drop] at hle
      rw [if_pos hsome, List.length_cons]
      omega

theorem rest_readAll (s : TokenStream) : s.readAll.point.rest = [] := by
  have hle := length_rest_readMore s.point.rest.length s
  rw [Nat.sub_self] at hle
  exact List.length_eq_zero_iff.mp (Nat.le_zero.mp hle)

theorem isComplete_readAll (s : TokenStream) : s.readAll.isComplete = true := by
  rw [isComplete, rest_readAll]
  rfl

theorem readAll_of_isComplete (h : s.isComplete = true) : s.readAll = s := by
  rw [readAll, List.isEmpty_iff.mp h]
  rfl

theorem size_le_readMore (n : Nat) (s : TokenStream) :
    s.tokens.size ≤ (readMore n s).tokens.size := by
  obtain ⟨fresh, hfresh, -⟩ := tokens_readMore n s
  rw [← Array.length_toList, ← Array.length_toList, hfresh, List.length_append]
  exact Nat.le_add_right ..

theorem follows_readMore (n : Nat) (h : s.Numbered) : s.Follows (readMore n s) := by
  obtain ⟨fresh, hfresh, hids, hnext⟩ := tokens_readMore n s
  refine .of_splice s.tokens.toList fresh [] h ?_ hids hnext ?_
  · rw [List.append_nil]
  · rw [hfresh, List.append_nil]

theorem ascending_readMore (n : Nat) (h : s.Numbered) :
    Ascending (readMore n s).tokens s.tokens.size := by
  obtain ⟨fresh, hfresh, hids, -⟩ := tokens_readMore n s
  have hnew : ∀ y b, s.tokens.size ≤ y → idAt (readMore n s).tokens y = some b →
      b = s.nextId + (y - s.tokens.size) := by
    intro y b hy hb
    have hget : (fresh.map Token.id)[y - s.tokens.size]? = some b := by
      rw [idAt, ← Array.getElem?_toList, hfresh, List.getElem?_append_right hy] at hb
      rw [List.getElem?_map]
      exact hb
    rw [hids] at hget
    obtain ⟨hlt, hval⟩ := List.getElem?_eq_some_iff.mp hget
    rw [List.getElem_range', Nat.one_mul] at hval
    exact hval.symm
  intro x y a b hxy hy ha hb
  rw [hnew y b hy hb]
  rcases Nat.lt_or_ge x s.tokens.size with hx | hx
  · obtain ⟨t, ht, rfl⟩ := Option.map_eq_some_iff.mp ha
    rw [← Array.getElem?_toList, hfresh, List.getElem?_append_left hx] at ht
    exact Nat.lt_of_lt_of_le (h.lt_next t (List.mem_of_getElem? ht)) (Nat.le_add_right ..)
  · rw [hnew x a hx ha]
    exact Nat.add_lt_add_left (by omega) s.nextId

theorem follows_readTo (i : Nat) (h : s.Numbered) : s.Follows (s.readTo i) := follows_readMore _ h

theorem follows_readAll (h : s.Numbered) : s.Follows s.readAll := follows_readMore _ h

theorem follows_readAllMuted (h : s.Numbered) : s.Follows s.readAllMuted := by
  have hmuted : Numbered { s with reporter := s.reporter.mute true } := h.congr rfl rfl
  exact (follows_readAll hmuted).congr rfl rfl rfl rfl

theorem nextId_freeze (t : Timeline) (ts : List Token) :
    (ts.foldl (fun l t => l.freeze t.id) t).markers.size = t.markers.size := by
  induction ts generalizing t with
  | nil => rfl
  | cons u ts ih =>
    rw [List.foldl_cons, ih]
    simp [Timeline.freeze]

theorem makeAll_spec (found : List FoundLexeme) (s : TokenStream) :
    ((makeAll found s).1.map Prod.fst).map Token.id = List.range' s.nextId found.length ∧
      (makeAll found s).2.nextId = s.nextId + found.length ∧
      (makeAll found s).1.length = found.length := by
  induction found generalizing s with
  | nil => exact ⟨rfl, rfl, rfl⟩
  | cons f fs ih =>
    obtain ⟨hids, hnext, hlength⟩ := ih (s.make f.point f.lexeme).2
    rw [nextId_make] at hids hnext
    refine ⟨?_, ?_, ?_⟩
    · simp only [makeAll, List.map_cons, List.length_cons, List.range'_succ] at hids ⊢
      rw [hids]
      rfl
    · simp only [makeAll, List.length_cons]
      rw [hnext]
      exact Nat.add_right_comm ..
    · simp only [makeAll, List.length_cons, hlength]

end TokenStream

theorem Survivor.rescan_kept (fuel : Nat) (p : ReadPoint) (olds : List Survivor) :
    (rescan fuel p olds).2 <:+ olds.map Survivor.token := by
  induction fuel generalizing p olds with
  | zero => exact List.nil_suffix
  | succ fuel ih =>
    simp only [rescan]
    cases p.cut? with
    | none => exact List.nil_suffix
    | some cut =>
      obtain ⟨l, next⟩ := cut
      have hdrop : ∀ os, (olds.dropWhile fun o => decide (o.start < (p.offset : Int))) = os →
          os.map Survivor.token <:+ olds.map Survivor.token := by
        rintro os rfl
        exact (List.dropWhile_suffix _).map _
      dsimp only
      split
      next hos => exact (ih next []).trans (hdrop [] hos)
      next o rest hos =>
        split
        · exact hdrop (o :: rest) hos
        · exact (ih next (o :: rest)).trans (hdrop (o :: rest) hos)

namespace TokenStream

variable {s : TokenStream}

theorem foldl_reportFault (made : List (Token × Option Code)) (s : TokenStream) :
    (made.foldl (fun r (t, fault) => r.reportFault t fault) s).tokens = s.tokens ∧
      (made.foldl (fun r (t, fault) => r.reportFault t fault) s).nextId = s.nextId := by
  induction made generalizing s with
  | nil => exact ⟨rfl, rfl⟩
  | cons x made ih =>
    obtain ⟨htokens, hnext⟩ := ih (s.reportFault x.1 x.2)
    rw [tokens_reportFault] at htokens
    rw [nextId_reportFault] at hnext
    exact ⟨htokens, hnext⟩

section Exchange

variable (s : TokenStream) (first count : Nat) (text : Text)

def exchangeShift : Shift :=
  .ofReplacement (s.startOf first).1 (s.endOf first count).1 (s.startOf first).2
    (s.endOf first count).2 text

def exchangedSource : Text :=
  Text.splice (s.startOf first).1 (s.endOf first count).1 text s.source

def exchangePoint : ReadPoint :=
  ⟨(s.startOf first).1, (s.startOf first).2,
    Text.dropBytes (s.startOf first).1 (s.exchangedSource first count text)⟩

def survivors : List Survivor :=
  (s.tokens.toList.drop (first + count)).map fun t =>
    ⟨t, ((s.location t).span.start : Int) + (s.exchangeShift first count text).byteOffset⟩

def rescanned : List FoundLexeme × List Token :=
  Survivor.rescan (s.exchangePoint first count text).rest.length
    (s.exchangePoint first count text) (s.survivors first count text)

def exchangeRemoved : List Token :=
  (s.tokens.toList.drop first).take
    (s.tokens.size - first - (s.rescanned first count text).2.length)

def exchangeTimeline : Timeline :=
  ((s.exchangeRemoved first count text).foldl (fun l t => l.freeze t.id) s.timeline).record
    (s.exchangeShift first count text)

def exchangeMade : List (Token × Option Code) × TokenStream :=
  makeAll (s.rescanned first count text).1
    { s with
      source := s.exchangedSource first count text
      timeline := s.exchangeTimeline first count text }

theorem exchange_tokens : (s.exchange first count text).2.tokens.toList =
    s.tokens.toList.take first ++ (s.exchangeMade first count text).1.map Prod.fst ++
      (s.rescanned first count text).2 := by
  have h : (s.exchange first count text).2.tokens =
      (s.tokens.toList.take first ++ (s.exchangeMade first count text).1.map Prod.fst ++
        (s.rescanned first count text).2).toArray := (foldl_reportFault _ _).1
  rw [h]

theorem exchange_nextId : (s.exchange first count text).2.nextId =
    s.nextId + (s.rescanned first count text).1.length := by
  have h : (s.exchange first count text).2.nextId =
      (s.exchangeMade first count text).2.nextId := (foldl_reportFault _ _).2
  rw [h, exchangeMade, (makeAll_spec _ _).2.1]
  exact congrArg (· + _) (nextId_freeze _ _)

theorem length_exchangeMade : ((s.exchangeMade first count text).1.map Prod.fst).length =
    (s.rescanned first count text).1.length :=
  (List.length_map _).trans (makeAll_spec _ _).2.2

theorem exchange_fresh : ((s.exchangeMade first count text).1.map Prod.fst).map Token.id =
    List.range' s.nextId ((s.exchangeMade first count text).1.map Prod.fst).length := by
  have hids := (makeAll_spec (s.rescanned first count text).1
    { s with
      source := s.exchangedSource first count text
      timeline := s.exchangeTimeline first count text }).1
  have hnext : nextId { s with
      source := s.exchangedSource first count text
      timeline := s.exchangeTimeline first count text } = s.nextId := nextId_freeze _ _
  rw [length_exchangeMade, exchangeMade, hids, hnext]

theorem rescanned_suffix :
    (s.rescanned first count text).2 <:+ s.tokens.toList.drop (first + count) := by
  have hkept := Survivor.rescan_kept (s.exchangePoint first count text).rest.length
    (s.exchangePoint first count text) (s.survivors first count text)
  have holds : (s.survivors first count text).map Survivor.token =
      s.tokens.toList.drop (first + count) := by
    rw [survivors, List.map_map]
    exact List.map_id _
  rwa [holds] at hkept

theorem rescanned_kept : (s.rescanned first count text).2 <:+ s.tokens.toList.drop first := by
  refine (s.rescanned_suffix first count text).trans ?_
  rw [← List.drop_drop]
  exact List.drop_suffix ..

theorem follows_exchange {s : TokenStream} (h : s.Numbered) :
    s.Follows (s.exchange first count text).2 := by
  refine .of_splice _ _ _ h ?_ (s.exchange_fresh first count text) ?_
    (s.exchange_tokens first count text)
  · have hkept := (s.rescanned_kept first count text).sublist
    have hsub := (List.Sublist.refl (s.tokens.toList.take first)).append hkept
    rwa [List.take_append_drop] at hsub
  · rw [exchange_nextId, length_exchangeMade]

end Exchange

theorem follows_restart (source : Text) (h : s.Numbered) : s.Follows (s.restart source).2 := by
  have hstart : Numbered
      { s with source, point := .start source, reporter := s.reporter.clear } := h.congr rfl rfl
  exact (follows_readAll hstart).congr rfl rfl rfl rfl

theorem follows_mutate (first count : Nat) (text : Text) (h : s.Numbered) :
    s.Follows (s.mutate first count text).2 := by
  have hread : s.Follows { s.readAllMuted with reporter := s.readAllMuted.reporter.emptySink } :=
    (follows_readAllMuted h).congr rfl rfl rfl rfl
  unfold mutate
  dsimp only
  split
  · exact hread.trans (follows_restart text hread.numbered)
  · exact hread.trans (follows_exchange _ _ text hread.numbered)

def widenedText (s : TokenStream) (start stop first number : Nat) (inserted : Text) : Text :=
  Text.slice (s.startOf first).1 start s.source ++ inserted ++
    Text.slice stop (s.endOf first number).1 s.source

def widenedMutation (s : TokenStream) (start stop : Nat) (inserted : Text) :
    Mutation × TokenStream :=
  if s.tokens.isEmpty then s.mutate 0 0 inserted
  else
    s.mutate (s.affected start stop).1 (s.affected start stop).2
      (s.widenedText start stop (s.affected start stop).1 (s.affected start stop).2 inserted)

theorem edit_eq (s : TokenStream) (start count : Nat) (inserted : Text) :
    s.edit start count inserted = match s.checkEdit start count inserted with
      | .error e => .error e s
      | .ok () => .ok (s.readAllMuted.widenedMutation start (runEnd start count) inserted).1
          (s.readAllMuted.widenedMutation start (runEnd start count) inserted).2 := by
  unfold edit widenedMutation
  cases s.checkEdit start count inserted with
  | error e => rfl
  | ok u =>
    dsimp only
    split <;> rfl

theorem edit_of_error {start count : Nat} {inserted : Text} {e : EditError}
    (h : s.checkEdit start count inserted = .error e) :
    s.edit start count inserted = .error e s := by
  rw [edit_eq, h]

theorem edit_of_ok {start count : Nat} {inserted : Text} {u : Unit}
    (h : s.checkEdit start count inserted = .ok u) : s.edit start count inserted =
      .ok (s.readAllMuted.widenedMutation start (runEnd start count) inserted).1
        (s.readAllMuted.widenedMutation start (runEnd start count) inserted).2 := by
  rw [edit_eq, h]

theorem checkEdit_of_edit {start count : Nat} {inserted : Text} {m : Mutation} {s' : TokenStream}
    (hedit : s.edit start count inserted = .ok m s') :
    s.checkEdit start count inserted = .ok () ∧
      (m, s') = s.readAllMuted.widenedMutation start (runEnd start count) inserted := by
  cases hcheck : s.checkEdit start count inserted with
  | error e =>
    rw [edit_of_error hcheck] at hedit
    cases hedit
  | ok u =>
    rw [edit_of_ok hcheck] at hedit
    injection hedit with hm hs'
    exact ⟨rfl, Prod.ext hm.symm hs'.symm⟩

/-- The checks come before anything is read, so an edit that is refused leaves the stream as it
was. -/
theorem edit_refused {start count : Nat} {inserted : Text} {e : EditError} {s' : TokenStream}
    (hedit : s.edit start count inserted = .error e s') :
    s.checkEdit start count inserted = .error e ∧ s' = s := by
  cases hcheck : s.checkEdit start count inserted with
  | error e' =>
    rw [edit_of_error hcheck] at hedit
    injection hedit with he hs'
    exact ⟨congrArg Except.error he, hs'.symm⟩
  | ok u =>
    rw [edit_of_ok hcheck] at hedit
    cases hedit

theorem exists_mutation_of_edit {start count : Nat} {inserted : Text} {m : Mutation}
    {s' : TokenStream} (hedit : s.edit start count inserted = .ok m s') :
    ∃ first number text, (m, s') = s.readAllMuted.mutate first number text := by
  obtain ⟨-, hresult⟩ := checkEdit_of_edit hedit
  unfold widenedMutation at hresult
  split at hresult
  · exact ⟨_, _, _, hresult⟩
  · exact ⟨_, _, _, hresult⟩

theorem follows_edit {start count : Nat} {inserted : Text} {m : Mutation} {s' : TokenStream}
    (h : s.Numbered) (hedit : s.edit start count inserted = .ok m s') : s.Follows s' := by
  have hread := follows_readAllMuted h
  obtain ⟨first, number, text, hmutate⟩ := exists_mutation_of_edit hedit
  obtain ⟨-, rfl⟩ := Prod.mk.inj hmutate
  exact hread.trans (follows_mutate first number text hread.numbered)

end TokenStream

end Reparse
