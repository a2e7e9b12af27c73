import Reparse.Proofs.TokenStream.Tiling

/-!
# Tokens keep their place

A token that is in the stream is where it was cut out of the present text. A token that a mutation
took out stays where it was in the text before that mutation, however often the stream is changed
afterwards. Coordinates are brought up to date when somebody asks for them, and it does not matter
when that is, or whether.
-/

namespace Reparse

open Lexeme (joined)

namespace TokenStream

variable {lines : Bool} {s s' s'' : TokenStream} {ls : List Lexeme}

/-- Token `t` sits at `l` in the source: behind the texts of the tokens before it. Lines and columns
are looked at if `lines` is set. -/
def StandsAt (lines : Bool) (s : TokenStream) (t : Token) (l : Location) : Prop :=
  ∃ front back behind, s.tokens.toList = front ++ t :: back ∧
    s.source = front.flatMap Token.text ++ t.text ++ behind ∧
    l.seen lines =
      ((Placement.behind (front.flatMap Token.text) t.text).location t.size).seen lines

theorem StandsAt.congr {t : Token} {l : Location} (h : s.StandsAt lines t l)
    (htokens : s'.tokens = s.tokens) (hsource : s'.source = s.source) : s'.StandsAt lines t l := by
  unfold StandsAt
  rw [htokens, hsource]
  exact h

theorem Covers.standsAt (h : s.Covers lines ls) {t : Token} (ht : t ∈ s.tokens) :
    s.StandsAt lines t (s.location t) := by
  obtain ⟨front, back, htokens⟩ := List.append_of_mem (Array.mem_toList_iff.mpr ht)
  refine ⟨front, back, back.flatMap Token.text ++ s.point.rest, htokens, ?_,
    h.location_behind htokens⟩
  rw [h.source, ← h.texts, htokens, List.flatMap_append, List.flatMap_cons]
  simp only [List.append_assoc]

def KeepsFrozen (s s' : TokenStream) : Prop :=
  ∀ slot p, s.timeline.frozen? slot = some p → s'.timeline.frozen? slot = some p

theorem KeepsFrozen.trans (h : s.KeepsFrozen s') (h' : s'.KeepsFrozen s'') : s.KeepsFrozen s'' :=
  fun slot p hp => h' slot p (h slot p hp)

def Has (s : TokenStream) (id : TokenId) : Prop := ∃ t ∈ s.tokens, t.id = id

def LosesOnly (s s' : TokenStream) (gone : List Token) : Prop :=
  ∀ id < s'.nextId, (id < s.nextId → s.Has id) → s'.Has id ∨ ∃ t ∈ gone, t.id = id

theorem LosesOnly.trans {gone : List Token} (h : s.LosesOnly s' [])
    (h' : s'.LosesOnly s'' gone) : s.LosesOnly s'' gone := by
  intro id hid hhas
  refine h' id hid fun hlt => (h id hlt hhas).resolve_right ?_
  rintro ⟨t, ht, -⟩
  exact absurd ht List.not_mem_nil

theorem frozen_read (s : TokenStream) : s.KeepsFrozen s.read.2 := by
  intro slot p hp
  unfold read
  cases s.point.cut? with
  | none => exact hp
  | some cut =>
    dsimp only
    rw [timeline_reportFault]
    exact Timeline.frozen_register hp _

theorem frozen_readMore (n : Nat) (s : TokenStream) : s.KeepsFrozen (readMore n s) := by
  induction n generalizing s with
  | zero => exact fun _ _ hp => hp
  | succ n ih =>
    rw [readMore_succ]
    split
    · exact (frozen_read s).trans (ih s.read.2)
    · exact frozen_read s

theorem losesOnly_readMore (n : Nat) (s : TokenStream) : s.LosesOnly (readMore n s) [] := by
  intro id hid hhas
  obtain ⟨fresh, htokens, hids, hnext⟩ := tokens_readMore n s
  rw [hnext] at hid
  refine .inl ?_
  by_cases hlt : id < s.nextId
  · obtain ⟨t, ht, rfl⟩ := hhas hlt
    refine ⟨t, Array.mem_toList_iff.mp ?_, rfl⟩
    rw [htokens]
    exact List.mem_append_left _ (Array.mem_toList_iff.mpr ht)
  · have hmem : id ∈ fresh.map Token.id := by
      rw [hids, List.mem_range'_1]
      exact ⟨Nat.le_of_not_lt hlt, hid⟩
    obtain ⟨t, ht, rfl⟩ := List.mem_map.mp hmem
    refine ⟨t, Array.mem_toList_iff.mp ?_, rfl⟩
    rw [htokens]
    exact List.mem_append_right _ ht

theorem frozen_readAllMuted (s : TokenStream) : s.KeepsFrozen s.readAllMuted :=
  frozen_readMore _ { s with reporter := s.reporter.mute true }

theorem losesOnly_readAllMuted (s : TokenStream) : s.LosesOnly s.readAllMuted [] :=
  losesOnly_readMore _ { s with reporter := s.reporter.mute true }

theorem frozen_freezeAll {t : Timeline} {slot : Nat} {p : Placement} (removed : List Token)
    (h : t.frozen? slot = some p) :
    (removed.foldl (fun l t => l.freeze t.id) t).frozen? slot = some p := by
  induction removed generalizing t with
  | nil => exact h
  | cons token removed ih => exact ih (Timeline.frozen_freeze h token.id)

theorem frozen_freezeAll_of_live {t : Timeline} {removed : List Token} {token : Token}
    {p : Placement} (htoken : token ∈ removed) (h : t.live? token.id = some p) :
    (removed.foldl (fun l t => l.freeze t.id) t).frozen? token.id = some p := by
  induction removed generalizing t with
  | nil => exact absurd htoken List.not_mem_nil
  | cons first removed ih =>
    by_cases hfirst : first.id = token.id
    · rw [List.foldl_cons, hfirst]
      exact frozen_freezeAll removed (Timeline.frozen_freeze_of_live h)
    · have hne : token ≠ first := fun heq => hfirst (heq ▸ rfl)
      exact ih ((List.mem_cons.mp htoken).resolve_left hne)
        ((Timeline.live_freeze_of_ne hfirst).trans h)

theorem frozen_makeAll {slot : Nat} {p : Placement} (found : List FoundLexeme) (s : TokenStream)
    (h : s.timeline.frozen? slot = some p) :
    (makeAll found s).2.timeline.frozen? slot = some p := by
  induction found generalizing s with
  | nil => exact h
  | cons f fs ih => exact ih (s.make f.point f.lexeme).2 (Timeline.frozen_register h _)

section Exchange

variable (s : TokenStream) (first count : Nat) (text : Text)

theorem frozen_exchange : s.KeepsFrozen (s.exchange first count text).2 := by
  intro slot p hp
  rw [timeline_exchange]
  exact frozen_makeAll _ _ ((Timeline.frozen_record ..).trans (frozen_freezeAll _ hp))

theorem tokens_parted : s.tokens.toList = s.tokens.toList.take first ++
    s.exchangeRemoved first count text ++ (s.rescanned first count text).2 := by
  have hkept := List.suffix_iff_eq_drop.mp (s.rescanned_kept first count text)
  have hlength : (s.tokens.toList.drop first).length = s.tokens.size - first := by
    rw [List.length_drop, Array.length_toList]
  rw [hlength] at hkept
  have hback : s.exchangeRemoved first count text ++ (s.rescanned first count text).2 =
      s.tokens.toList.drop first :=
    (congrArg (s.exchangeRemoved first count text ++ ·) hkept).trans (List.take_append_drop ..)
  rw [List.append_assoc, hback, List.take_append_drop]

theorem mem_exchange {t : Token} (ht : t ∈ s.tokens) :
    t ∈ (s.exchange first count text).2.tokens ∨ t ∈ s.exchangeRemoved first count text := by
  rw [← Array.mem_toList_iff, s.tokens_parted first count text, List.mem_append,
    List.mem_append] at ht
  rw [← Array.mem_toList_iff, exchange_tokens, List.mem_append, List.mem_append]
  rcases ht with (ht | ht) | ht
  · exact .inl (.inl (.inl ht))
  · exact .inr ht
  · exact .inl (.inr ht)

theorem losesOnly_exchange : s.LosesOnly (s.exchange first count text).2
    (s.exchangeRemoved first count text) := by
  intro id hid hhas
  by_cases hlt : id < s.nextId
  · obtain ⟨t, ht, rfl⟩ := hhas hlt
    rcases s.mem_exchange first count text ht with ht | ht
    · exact .inl ⟨t, ht, rfl⟩
    · exact .inr ⟨t, ht, rfl⟩
  · have hmem : id ∈ ((s.exchangeMade first count text).1.map Prod.fst).map Token.id := by
      rw [exchange_fresh, List.mem_range'_1, length_exchangeMade, ← exchange_nextId]
      exact ⟨Nat.le_of_not_lt hlt, hid⟩
    obtain ⟨t, ht, rfl⟩ := List.mem_map.mp hmem
    refine .inl ⟨t, Array.mem_toList_iff.mp ?_, rfl⟩
    rw [exchange_tokens]
    exact List.mem_append_left _ (List.mem_append_right _ ht)

theorem removed_mem {t : Token} (ht : t ∈ s.exchangeRemoved first count text) : t ∈ s.tokens :=
  Array.mem_toList_iff.mp (List.mem_of_mem_drop (List.mem_of_mem_take ht))

theorem removed_not_has {s : TokenStream} (h : s.Numbered) {t : Token}
    (ht : t ∈ s.exchangeRemoved first count text) :
    ¬(s.exchange first count text).2.Has t.id := by
  rintro ⟨u, hu, hid⟩
  have hnodup := h.nodup
  rw [s.tokens_parted first count text, List.map_append, List.map_append, List.nodup_append,
    List.nodup_append] at hnodup
  obtain ⟨⟨-, -, hfront⟩, -, hback⟩ := hnodup
  have hremoved := List.mem_map_of_mem (f := Token.id) ht
  rw [← Array.mem_toList_iff, exchange_tokens, List.mem_append, List.mem_append] at hu
  rcases hu with (hu | hu) | hu
  · exact hfront _ (List.mem_map_of_mem hu) _ hremoved hid
  · have hfresh : u.id ∈ List.range' s.nextId _ :=
      s.exchange_fresh first count text ▸ List.mem_map_of_mem hu
    have hold := h.lt_next t (Array.mem_toList_iff.mpr (s.removed_mem first count text ht))
    rw [List.mem_range'_1, hid] at hfresh
    exact absurd hold (Nat.not_lt.mpr hfresh.1)
  · exact hback _ (List.mem_append_right _ hremoved) _ (List.mem_map_of_mem hu) hid.symm

theorem frozen_removed {s : TokenStream} (h : s.Lays lines ls) {t : Token}
    (ht : t ∈ s.exchangeRemoved first count text) :
    (s.exchange first count text).2.timeline.frozen? t.id = some (s.timeline.placement t.id) := by
  obtain ⟨p, hp⟩ := exists_live h.sights t
    (Array.mem_toList_iff.mpr (s.removed_mem first count text ht))
  rw [timeline_exchange, Timeline.placement_of_live hp]
  exact frozen_makeAll _ _ ((Timeline.frozen_record ..).trans (frozen_freezeAll_of_live ht hp))

end Exchange

/-- What one step does. The tokens in `gone` leave, each with the coordinates it has in `r`, the
stream they were taken out of; no other token is lost, and those that left before stay put. -/
structure Retires (lines : Bool) (s r s' : TokenStream) (gone : List Token) : Prop where
  frozen : s.KeepsFrozen s'
  loses : s.LosesOnly s' gone
  gone : ∀ t ∈ gone, ¬s'.Has t.id ∧ t.id < s'.nextId ∧
    ∃ p, s'.timeline.frozen? t.id = some p ∧ r.StandsAt lines t (p.location t.size)

theorem Retires.of_none {r : TokenStream} (hfrozen : s.KeepsFrozen s')
    (hloses : s.LosesOnly s' []) : s.Retires lines r s' [] :=
  ⟨hfrozen, hloses, fun _ ht => absurd ht List.not_mem_nil⟩

theorem retires_readMore (n : Nat) (s r : TokenStream) : s.Retires lines r (readMore n s) [] :=
  .of_none (frozen_readMore n s) (losesOnly_readMore n s)

theorem Retires.refl (s r : TokenStream) : s.Retires lines r s [] := retires_readMore 0 s r

theorem retires_exchange (h : s.Covers lines ls) (hnumbered : s.Numbered) (first count : Nat)
    (text : Text) : s.Retires lines s (s.exchange first count text).2
      (s.exchangeRemoved first count text) where
  frozen := s.frozen_exchange first count text
  loses := s.losesOnly_exchange first count text
  gone t ht := by
    have hmem := s.removed_mem first count text ht
    have hlt := hnumbered.lt_next t (Array.mem_toList_iff.mpr hmem)
    have hnext := (follows_exchange first count text hnumbered).next_le
    refine ⟨removed_not_has first count text hnumbered ht, Nat.lt_of_lt_of_le hlt hnext, _,
      frozen_removed first count text h.toLays ht, h.standsAt hmem⟩

theorem retires_mutate (h : s.Covers lines ls) (hnumbered : s.Numbered) (first count : Nat)
    (text : Text) : s.Retires lines s.readAllMuted (s.mutate first count text).2
      (s.mutate first count text).1.removed := by
  have hfrozen := frozen_readAllMuted s
  have hloses := losesOnly_readAllMuted s
  obtain ⟨ms, hms, -⟩ := h.readAllMuted
  have hsilent : Covers lines { s.readAllMuted with
      reporter := s.readAllMuted.reporter.emptySink } ms :=
    ⟨hms.toLays.congr rfl rfl rfl rfl, hms.source, hms.cut⟩
  have hnumbered' := (follows_readAllMuted hnumbered).numbered
  unfold TokenStream.mutate
  cases hempty : s.readAllMuted.tokens.isEmpty with
  | true =>
    simp only [hempty, if_true]
    refine .of_none (hfrozen.trans ?_) (hloses.trans ?_)
    · exact frozen_readMore _
        { s.readAllMuted with
          source := text, point := .start text
          reporter := s.readAllMuted.reporter.emptySink.clear }
    · exact losesOnly_readMore _
        { s.readAllMuted with
          source := text, point := .start text
          reporter := s.readAllMuted.reporter.emptySink.clear }
  | false =>
    simp only [hempty, Bool.false_eq_true, if_false]
    have hexchange := retires_exchange hsilent (hnumbered'.congr rfl rfl)
      (min first s.readAllMuted.tokens.size)
      (min count (s.readAllMuted.tokens.size - min first s.readAllMuted.tokens.size)) text
    refine ⟨hfrozen.trans hexchange.frozen, hloses.trans hexchange.loses, fun t ht => ?_⟩
    obtain ⟨hnot, hlt, p, hp, hstands⟩ := hexchange.gone t ht
    exact ⟨hnot, hlt, p, hp, hstands.congr rfl rfl⟩

theorem retires_edit (h : s.Covers lines ls) (hnumbered : s.Numbered) {start count : Nat}
    {inserted : Text} {m : Mutation} (hedit : s.edit start count inserted = .ok m s') :
    s.Retires lines s.readAllMuted s' m.removed := by
  obtain ⟨first, number, text, hmutate⟩ := exists_mutation_of_edit hedit
  obtain ⟨rfl, rfl⟩ := Prod.mk.inj hmutate
  obtain ⟨ms, hms, hrest⟩ := h.readAllMuted
  have hstep := retires_mutate hms (follows_readAllMuted hnumbered).numbered first number text
  rw [readAllMuted_of_complete hrest] at hstep
  exact ⟨(frozen_readAllMuted s).trans hstep.frozen,
    (losesOnly_readAllMuted s).trans hstep.loses, hstep.gone⟩

def look (s : TokenStream) (id : TokenId) : TokenStream :=
  { s with timeline := s.timeline.settle id }

theorem follows_look (h : s.Numbered) (id : TokenId) : s.Follows (s.look id) :=
  (Follows.refl h).congr rfl rfl rfl (Timeline.size_settle ..)

theorem Covers.look (h : s.Covers lines ls) (id : TokenId) : (s.look id).Covers lines ls where
  point := h.point
  sights := by
    rw [← h.sights]
    refine List.map_congr_left fun t _ => ?_
    rw [Timeline.sight, TokenStream.look, Timeline.live_settle]
    rfl
  reports := h.reports
  inStep := h.inStep.settle id
  source := h.source
  cut := h.cut

theorem retires_look (s r : TokenStream) (id : TokenId) : s.Retires lines r (s.look id) [] := by
  refine .of_none (fun slot p hp => (Timeline.frozen_settle ..).trans hp) fun other hid hhas => ?_
  rw [nextId, look, Timeline.size_settle] at hid
  exact .inl (hhas hid)

theorem Follows.not_has (h : s.Follows s') {id : TokenId} (hid : id < s.nextId)
    (hnot : ¬s.Has id) : ¬s'.Has id := by
  rintro ⟨t, ht, rfl⟩
  have hbelow : t ∈ below s.nextId s'.tokens.toList :=
    List.mem_filter.mpr ⟨Array.mem_toList_iff.mpr ht, decide_eq_true hid⟩
  exact hnot ⟨t, Array.mem_toList_iff.mp (h.sublist.subset hbelow), rfl⟩

end TokenStream

inductive WatchedOp
  | op (op : SessionOp)
  | look (id : TokenId)
  deriving Repr

namespace Session

variable {lines : Bool} {s : Session} {ls : List Lexeme}

def watch (s : Session) : WatchedOp → Session
  | .op op => s.apply op
  | .look id => { s with stream := s.stream.look id }

def watchAll (s : Session) (ops : List WatchedOp) : Session := ops.foldl watch s

def retired (s : Session) : WatchedOp → List Token
  | .op (.edit start count inserted) =>
    match s.stream.edit start count inserted with
    | .ok m _ => m.removed
    | .error _ _ => []
  | .op (.mutate first count text) => (s.stream.mutate first count text).1.removed
  | _ => []

theorem Valid.watch (h : s.Valid) (op : WatchedOp) : (s.watch op).Valid := by
  cases op with
  | op op => exact h.apply op
  | look id => exact h.follows (TokenStream.follows_look h.numbered id)

theorem follows_watch (h : s.Valid) (op : WatchedOp) : s.stream.Follows (s.watch op).stream := by
  cases op with
  | op op => exact follows_apply h.numbered op
  | look id => exact TokenStream.follows_look h.numbered id

theorem covers_watch (h : s.Valid) (hcovers : s.stream.Covers lines ls) (op : WatchedOp)
    (hfits : Text.Fits lines (s.watch op).stream.source) :
    ∃ ms, (s.watch op).stream.Covers lines ms := by
  cases op with
  | op op => exact covers_apply h hcovers op fun _ => hfits
  | look id => exact ⟨ls, hcovers.look id⟩

theorem retires_watch (h : s.Valid) (hcovers : s.stream.Covers lines ls) (op : WatchedOp) :
    s.stream.Retires lines s.stream.readAllMuted (s.watch op).stream (s.retired op) := by
  cases op with
  | look id => exact TokenStream.retires_look ..
  | op op =>
    cases op with
    | edit start count inserted =>
      simp only [Session.watch, Session.apply, Session.retired]
      cases hedit : s.stream.edit start count inserted with
      | error e s' =>
        rw [(TokenStream.edit_refused hedit).2]
        exact .refl ..
      | ok m s' => exact TokenStream.retires_edit hcovers h.numbered hedit
    | mutate first count text =>
      exact TokenStream.retires_mutate hcovers h.numbered first count text
    | readNext =>
      have hread : s.stream.read.2 = TokenStream.readMore 1 s.stream := by
        rw [TokenStream.readMore_succ]
        split <;> rfl
      simp only [Session.watch, Session.apply, hread]
      exact TokenStream.retires_readMore ..
    | readTo i => exact TokenStream.retires_readMore ..
    | readAll => exact TokenStream.retires_readMore ..
    | parse => exact TokenStream.retires_readMore ..
    | evict key => exact .refl ..
    | forget tokens => exact .refl ..
    | clear => exact .refl ..

theorem Valid.watchAll (h : s.Valid) (ops : List WatchedOp) : (s.watchAll ops).Valid := by
  induction ops generalizing s with
  | nil => exact h
  | cons op ops ih => exact ih (h.watch op)

theorem follows_watchAll (h : s.Valid) (ops : List WatchedOp) :
    s.stream.Follows (s.watchAll ops).stream := by
  induction ops generalizing s with
  | nil => exact .refl h.numbered
  | cons op ops ih => exact (follows_watch h op).trans (ih (h.watch op))

def Fits (lines : Bool) (s : Session) (ops : List WatchedOp) : Prop :=
  ∀ done, done <+: ops → Text.Fits lines (s.watchAll done).stream.source

theorem Fits.head {op : WatchedOp} {ops : List WatchedOp} (h : s.Fits lines (op :: ops)) :
    Text.Fits lines (s.watch op).stream.source :=
  h [op] ((List.cons_prefix_cons).mpr ⟨rfl, List.nil_prefix⟩)

theorem Fits.tail {op : WatchedOp} {ops : List WatchedOp} (h : s.Fits lines (op :: ops)) :
    (s.watch op).Fits lines ops :=
  fun done hdone => h (op :: done) ((List.cons_prefix_cons).mpr ⟨rfl, hdone⟩)

theorem covers_watchAll (h : s.Valid) (hcovers : s.stream.Covers lines ls) {ops : List WatchedOp}
    (hfits : s.Fits lines ops) : ∃ ms, (s.watchAll ops).stream.Covers lines ms := by
  induction ops generalizing s ls with
  | nil => exact ⟨ls, hcovers⟩
  | cons op ops ih =>
    obtain ⟨ms, hms⟩ := covers_watch h hcovers op hfits.head
    exact ih (h.watch op) hms hfits.tail

theorem frozen_watchAll (h : s.Valid) (hcovers : s.stream.Covers lines ls) {ops : List WatchedOp}
    (hfits : s.Fits lines ops) : s.stream.KeepsFrozen (s.watchAll ops).stream := by
  induction ops generalizing s ls with
  | nil => exact fun _ _ hp => hp
  | cons op ops ih =>
    obtain ⟨ms, hms⟩ := covers_watch h hcovers op hfits.head
    exact (retires_watch h hcovers op).frozen.trans (ih (h.watch op) hms hfits.tail)

theorem retired_of_not_has (h : s.Valid) (hcovers : s.stream.Covers lines ls) {ops : List WatchedOp}
    (hfits : s.Fits lines ops) {id : TokenId} (hid : id < (s.watchAll ops).stream.nextId)
    (hhas : id < s.stream.nextId → s.stream.Has id) :
    (s.watchAll ops).stream.Has id ∨ ∃ done op rest, ops = done ++ op :: rest ∧
      ∃ t ∈ (s.watchAll done).retired op, t.id = id := by
  induction ops generalizing s ls with
  | nil => exact .inl (hhas hid)
  | cons op ops ih =>
    obtain ⟨ms, hms⟩ := covers_watch h hcovers op hfits.head
    have hloses := (retires_watch h hcovers op).loses id
    by_cases hgone : ∃ t ∈ s.retired op, t.id = id
    · exact .inr ⟨[], op, ops, rfl, hgone⟩
    · have hstep := ih (h.watch op) hms hfits.tail hid fun hlt =>
        (hloses hlt hhas).resolve_right hgone
      refine hstep.imp_right ?_
      rintro ⟨done, op', rest, rfl, ht⟩
      exact ⟨op :: done, op', rest, rfl, ht⟩

theorem watchAll_append (s : Session) (done : List WatchedOp) (op : WatchedOp)
    (rest : List WatchedOp) :
    s.watchAll (done ++ op :: rest) = ((s.watchAll done).watch op).watchAll rest := by
  rw [watchAll, List.foldl_append]
  rfl

theorem Fits.split {done rest : List WatchedOp} {op : WatchedOp}
    (h : s.Fits lines (done ++ op :: rest)) :
    s.Fits lines done ∧ (s.watchAll done).Fits lines (op :: rest) := by
  refine ⟨fun first hfirst => h first (hfirst.trans (List.prefix_append ..)), fun more hmore => ?_⟩
  have hrun : (s.watchAll done).watchAll more = s.watchAll (done ++ more) :=
    List.foldl_append.symm
  rw [hrun]
  exact h _ ((List.prefix_append_right_inj done).mpr hmore)

/-- Whatever has been read, edited, exchanged and looked at: a token that is in the stream is where
its text is in the present source. A token that was taken out is not in the stream any more, and is
where its text was in the source it was taken out of. These are all the tokens ever made. Lines and
columns are right as long as every text that the stream comes to has lines with 32-bit numbers. -/
theorem location_watchAll (lines : Bool) (source : Text) (ops : List WatchedOp)
    (hfits : (ofSource source).Fits lines ops) :
    let s := (ofSource source).watchAll ops
    (∀ t ∈ s.stream.tokens, s.stream.StandsAt lines t (s.stream.location t)) ∧
      (∀ done op rest, ops = done ++ op :: rest →
        ∀ t ∈ ((ofSource source).watchAll done).retired op, ¬s.stream.Has t.id ∧
          ((ofSource source).watchAll done).stream.readAllMuted.StandsAt lines t
            (s.stream.location t)) ∧
      ∀ id < s.stream.nextId, s.stream.Has id ∨ ∃ done op rest, ops = done ++ op :: rest ∧
        ∃ t ∈ ((ofSource source).watchAll done).retired op, t.id = id := by
  intro s
  have hvalid := valid_ofSource source
  have hstart := TokenStream.covers_ofSource lines source
  obtain ⟨ms, hms⟩ := covers_watchAll hvalid hstart hfits
  refine ⟨fun t ht => hms.standsAt ht, ?_, fun id hid => ?_⟩
  · rintro done op rest hops t ht
    rw [hops] at hfits
    obtain ⟨hdone, hmore⟩ := hfits.split
    obtain ⟨ls, hls⟩ := covers_watchAll hvalid hstart hdone
    have hthen := hvalid.watchAll done
    obtain ⟨ks, hks⟩ := covers_watch hthen hls op hmore.head
    obtain ⟨hnot, hlt, p, hp, hstands⟩ := (retires_watch hthen hls op).gone t ht
    have hlast : s = (((ofSource source).watchAll done).watch op).watchAll rest := by
      rw [← watchAll_append, ← hops]
    -- The placement was frozen as the token went, and nothing that follows moves a frozen one.
    have hfrozen := frozen_watchAll (hthen.watch op) hks hmore.tail t.id p hp
    have hfollows := follows_watchAll (hthen.watch op) rest
    rw [← hlast] at hfrozen hfollows
    refine ⟨hfollows.not_has hlt hnot, ?_⟩
    rwa [TokenStream.location, Timeline.location, Timeline.placement_of_frozen hfrozen]
  · exact retired_of_not_has hvalid hstart hfits hid fun hlt => absurd hlt (Nat.not_lt_zero id)

theorem location_watchAll_exchanged :
    let done : List WatchedOp := [.op .readNext, .look 0]
    let rest : List WatchedOp := [.look 2, .op (.edit 0 0 ['c', '\n']), .look 2]
    let s := (ofSource ['a', ' ', 'b']).watchAll (done ++ .op (.mutate 2 1 ['+']) :: rest)
    ¬s.stream.Has 2 ∧
      ((ofSource ['a', ' ', 'b']).watchAll done).stream.readAllMuted.StandsAt true
        ⟨2, .identifier, ['b']⟩ (s.stream.location ⟨2, .identifier, ['b']⟩) := by
  intro done rest s
  have hshort : ∀ n < 7, Text.size ((ofSource ['a', ' ', 'b']).watchAll
      ((done ++ .op (.mutate 2 1 ['+']) :: rest).take n)).stream.source < maxCoordinate := by
    decide +kernel
  have hfits : (ofSource ['a', ' ', 'b']).Fits true (done ++ .op (.mutate 2 1 ['+']) :: rest) := by
    intro first hfirst
    have hlt := hshort first.length (Nat.lt_succ_of_le hfirst.length_le)
    rw [← List.prefix_iff_eq_take.mp hfirst] at hlt
    exact Text.fits_of_ne_feeds (Nat.le_of_lt hlt) fun _ => Text.ne_feeds_of_size_lt hlt
  exact (location_watchAll true ['a', ' ', 'b'] _ hfits).2.1 done _ rest rfl ⟨2, .identifier, ['b']⟩
    (by decide +kernel)

theorem exists_not_standsAt_of_feeds {n : Nat} (hn : n + 1 = maxCoordinate) :
    let s := (ofSource (List.replicate n '\n')).watchAll
      [.op (.edit 0 0 ['\n']), .op (.edit 0 n ['l', 'e', 't'])]
    ∃ t ∈ s.stream.tokens, ¬s.stream.StandsAt true t (s.stream.location t) := by
  intro s
  obtain ⟨last, hheld⟩ := exists_heldBack_run hn
  have hheld : s.stream.HeldBack last := hheld
  obtain ⟨i, htokens, hkind, htext, -⟩ := hheld.parts
  refine ⟨last, Array.mem_toList_iff.mp ?_, ?_⟩
  · rw [htokens]
    exact List.mem_cons_of_mem _ List.mem_cons_self
  · rintro ⟨front, back, behind, hparts, -, hplace⟩
    -- The token is the last one of two, so a word stands before it.
    have hfront : front.flatMap Token.text = ['l', 'e', 't'] := by
      rw [htokens] at hparts
      cases front with
      | nil =>
        have hword := congrArg Token.kind (List.cons.inj hparts).1
        rw [hkind] at hword
        cases hword
      | cons t front =>
        obtain ⟨rfl, htail⟩ := List.cons.inj hparts
        cases front with
        | nil => rfl
        | cons u front => simp at htail
    have hline := hheld.held
    have hsame : s.stream.location last = _ := hplace
    rw [hsame, hfront, htext] at hline
    have hline : 2 ≤ 1 := hline
    omega

/-- The text of 2³² - 1 line feeds comes between two shorter ones. After that the last token is not
where its text is. -/
theorem exists_not_standsAt_feeds :
    let s := (ofSource (List.replicate 4294967294 '\n')).watchAll
      [.op (.edit 0 0 ['\n']), .op (.edit 0 4294967294 ['l', 'e', 't'])]
    ∃ t ∈ s.stream.tokens, ¬s.stream.StandsAt true t (s.stream.location t) :=
  exists_not_standsAt_of_feeds rfl

end Session

end Reparse
