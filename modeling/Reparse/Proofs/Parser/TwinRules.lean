import Reparse.Proofs.Parser.TwinSeries

/-!
# Twin rules

A rule whose results are kept does the same whether it is answered from the memo or run. The entry
that answers it describes a bare run at its place, and so does every entry that is filed.
-/

namespace Reparse

open Reparse.Parser

/-- The parser starts by looking for the next token, so that having looked before changes nothing.
-/
def Looks {β : Type} (p : Parser β) : Prop :=
  ∀ c s, p.eval c (looked c.tokens s) = p.eval c s

namespace Looks

variable {β γ σ : Type}

theorem nextToken : Looks Parser.nextToken := by
  intro c s
  rw [eval_nextToken, eval_nextToken, looked_cursor, looked_looked]

theorem bind {p : Parser β} {q : β → Parser γ} (h : Looks p) : Looks (p >>= q) := by
  intro c s
  rw [eval_bind, eval_bind, h c s]

theorem loop {turn : σ → Parser (Turn σ)} (h : ∀ b, Looks (turn b)) (b : σ) :
    Looks (loop turn b) := by
  intro c s
  rw [eval_loop, eval_loop, looked_cursor, iterate_succ, (h b).bind c s]

theorem nextKind : Looks Parser.nextKind := nextToken.bind

theorem consumeTrivia : Looks Parser.consumeTrivia := by
  intro c s
  rw [eval_consumeTrivia, eval_consumeTrivia, looked_cursor, looked_looked]

theorem accept (k : Kind) : Looks (accept k) := nextKind.bind.bind

end Looks

variable {w : Window} {next : TokenId} {E : TokenId → Entry → Prop}
  {pre₁ pre₂ s₁ s₂ : ParseState} {m : Nat}
  {β : Type} [RuleNode β]

theorem Onward.remembered {body : Parser (Option β)} (h : Onward body) :
    Onward (remembered body) := by
  intro c s
  cases ht : c.tokens[s.cursor]? with
  | none =>
    rw [eval_remembered_none ht]
    exact h c (readPast c s.cursor s)
  | some t =>
    obtain ⟨read, -, -, -, ⟨e, -, -, -, heval⟩ | ⟨-, heval⟩⟩ := eval_remembered_some body ht
    · rw [heval]
      exact ⟨Nat.le_add_right .., Nat.le_max_left ..⟩
    · rw [heval, eval_runAndFile]
      exact ⟨(h c (opened s.cursor { s with read })).1, Nat.le_max_left ..⟩

namespace Twins

theorem read {n : Nat} (ht : Twins w next E pre₁ pre₂ s₁ s₂) (hle : s₂.read ≤ n)
    (hn : n ≤ w.right.size) : Twins w next E pre₁ pre₂ s₁ { s₂ with read := n } := by
  have hcursor := ht.right_cursor
  have hread := ht.right_read
  have hseen := ht.right_seen
  exact { ht with
    right_cursor := by simp only; omega
    right_read := hn
    right_since := Nat.le_trans ht.right_since hle
    right_seen := by simp only; omega
    right_fresh := ht.right_fresh.mono hle
    right_next := ht.right_next.imp_left fun h => by simp only; omega }

theorem opened {x : Nat} (ht : Twins w next E pre₁ pre₂ s₁ s₂) (hx : s₁.cursor = w.i + x)
    (hread : s₂.cursor < s₂.read) :
    Twins (w.shift x) next E s₁ s₂ (opened s₁.cursor s₁)
      (opened s₂.cursor s₂) where
  cursor := by
    have h := ht.cursor
    simp only [Window.shift, Parser.opened]
    omega
  reach := by
    have h := ht.cursor
    simp only [Window.shift, Parser.opened]
    omega
  comments := rfl
  reports := ⟨#[], by simp [Parser.opened], by simp [Parser.opened]⟩
  left_read := ht.left_read
  left_cursor := ht.left_cursor
  left_reach := Nat.le_succ _
  left_memo := ht.left_memo
  right_cursor := ht.right_cursor
  right_read := ht.right_read
  right_since := Nat.le_refl _
  right_seen := .inl hread
  right_fresh := ht.right_fresh
  right_next := ht.right_next
  right_memo := ht.right_memo

theorem opened_bare {x : Nat} (ht : Twins w next E pre₁ pre₂ s₁ s₂) (hx : s₁.cursor = w.i + x) :
    Twins (w.shift x) 0 (fun _ e => e.watermark = 0) s₁ (.bare w.right s₂.cursor)
      (Parser.opened s₁.cursor s₁) (.bare w.right s₂.cursor) where
  cursor := by
    have h := ht.cursor
    simp only [Window.shift, Parser.opened, ParseState.bare]
    omega
  reach := by
    have h := ht.cursor
    simp only [Window.shift, Parser.opened, ParseState.bare]
    omega
  comments := rfl
  reports := ⟨#[], by simp [Parser.opened], by simp [ParseState.bare]⟩
  left_read := ht.left_read
  left_cursor := ht.left_cursor
  left_reach := Nat.le_succ _
  left_memo := ht.left_memo
  right_cursor := Nat.le_trans ht.right_cursor ht.right_read
  right_read := Nat.le_refl _
  right_since := Nat.le_refl _
  right_seen := (Nat.lt_or_eq_of_le (Nat.le_trans ht.right_cursor ht.right_read)).imp_right
    fun h => ⟨h, rfl⟩
  right_fresh := ascending_size w.right
  right_next := .inl rfl
  right_memo := .empty

theorem bare_opened (ht : Twins w next E pre₁ pre₂ s₁ s₂) (hread : s₂.cursor < s₂.read) :
    Twins (.same w.right s₂.cursor) next E (.bare w.right s₂.cursor) s₂ (.bare w.right s₂.cursor)
      (Parser.opened s₂.cursor s₂) where
  cursor := rfl
  reach := rfl
  comments := rfl
  reports := ⟨#[], by simp [ParseState.bare], by simp [Parser.opened]⟩
  left_read := rfl
  left_cursor := Nat.le_trans ht.right_cursor ht.right_read
  left_reach := Nat.le_succ _
  left_memo := .empty
  right_cursor := ht.right_cursor
  right_read := ht.right_read
  right_since := Nat.le_refl _
  right_seen := .inl hread
  right_fresh := ht.right_fresh
  right_next := ht.right_next
  right_memo := ht.right_memo

theorem closed {x : Nat} {r₁ r₂ : Option β × ParseState} {key₁ key₂ : TokenId}
    {c₁ c₂ : ParseContext} (ht : Twins w next E pre₁ pre₂ s₁ s₂)
    (hr : Twins (w.shift x) next E s₁ s₂ r₁.2 r₂.2)
    (h₁ : (entryOf s₁.cursor c₁ s₁.reports.size r₁).watermark = 0)
    (h₂ : E key₂ (entryOf s₂.cursor c₂ s₂.reports.size r₂)) :
    Twins w next E pre₁ pre₂ (closed s₁.cursor key₁ c₁ s₁ r₁)
      (Parser.closed s₂.cursor key₂ c₂ s₂ r₂) where
  cursor := by
    have h := hr.cursor
    simp only [Window.shift] at h
    simp only [Parser.closed]
    omega
  reach := by
    have h := hr.reach
    have h' := ht.reach
    simp only [Window.shift] at h
    simp only [Parser.closed]
    omega
  comments := by
    simp only [Parser.closed, Renumber.renumber_append, ht.comments, hr.comments]
    rfl
  reports := by
    obtain ⟨new, hn₁, hn₂⟩ := ht.reports
    obtain ⟨inner, hi₁, hi₂⟩ := hr.reports
    refine ⟨new ++ inner, ?_, ?_⟩
    · simp only [Parser.closed, hi₁, hn₁, Array.append_assoc]
    · simp only [Parser.closed, hi₂, hn₂, Array.append_assoc, Renumber.renumber_array_append]
      rfl
  left_read := hr.left_read
  left_cursor := hr.left_cursor
  left_reach := by
    have h := hr.left_reach
    simp only [Parser.closed]
    omega
  left_memo := hr.left_memo.insert h₁
  right_cursor := hr.right_cursor
  right_read := hr.right_read
  right_since := Nat.le_trans ht.right_since hr.right_since
  right_seen := by
    have h := hr.right_seen
    have h' := ht.right_seen
    have hread := hr.right_since
    have hsize := hr.right_read
    simp only [Window.shift] at h hsize
    simp only [Parser.closed]
    omega
  right_fresh := hr.right_fresh
  right_next := hr.right_next
  right_memo := hr.right_memo.insert h₂

theorem replayed {x : Nat} {e : Entry} {r : Option β × ParseState} {key : TokenId}
    {c : ParseContext} (ht : Twins w next E pre₁ pre₂ s₁ s₂)
    (hd : e.Describes w.right s₂.cursor)
    (hb : Twins (w.shift x) 0 (fun _ e => e.watermark = 0) s₁ (.bare w.right s₂.cursor) r.2
      (e.bareRun w.right s₂.cursor).2)
    (h : (entryOf s₁.cursor c s₁.reports.size r).watermark = 0)
    (hread : min (s₂.cursor + (e.lookahead - 1) + 1) w.right.size ≤ s₂.read) :
    Twins w next E pre₁ pre₂ (Parser.closed s₁.cursor key c s₁ r)
      (replayed s₂.cursor e s₂) where
  cursor := by
    have h := hb.cursor
    have hend := hd.consumed
    simp only [Window.shift] at h
    simp only [Parser.closed, Parser.replayed]
    omega
  reach := by
    have h := hb.reach
    have h' := ht.reach
    have hend := hd.lookahead
    simp only [Window.shift] at h
    simp only [Parser.closed, Parser.replayed]
    omega
  comments := by
    simp only [Parser.closed, Parser.replayed, Renumber.renumber_append, ht.comments, hd.leftover,
      hb.comments]
    rfl
  reports := by
    obtain ⟨new, hn₁, hn₂⟩ := ht.reports
    obtain ⟨inner, hi₁, hi₂⟩ := hb.reports
    refine ⟨new ++ inner, ?_, ?_⟩
    · simp only [Parser.closed, hi₁, hn₁, Array.append_assoc]
    · simp only [Parser.replayed, hn₂, hd.reports, hi₂, ParseState.bare_reports,
        Array.append_assoc, Array.empty_append, Renumber.renumber_array_append]
      rfl
  left_read := hb.left_read
  left_cursor := hb.left_cursor
  left_reach := by
    have h := hb.left_reach
    simp only [Parser.closed]
    omega
  left_memo := hb.left_memo.insert h
  right_cursor := by
    have h := hb.cursor
    have h' := hb.reach
    have hle := hb.left_reach
    have hcursor := hd.consumed
    have hreach := hd.lookahead
    have hend := hb.right_cursor
    have hsize := hb.right_read
    simp only [Window.shift] at h h' hsize
    simp only [Parser.replayed]
    omega
  right_read := ht.right_read
  right_since := ht.right_since
  right_seen := by
    have h := ht.right_seen
    have hle := ht.right_read
    have hseen := hb.right_seen
    have hsize := hb.right_read
    have hend := hd.lookahead
    simp only [Window.shift] at hseen hsize
    simp only [Parser.replayed]
    omega
  right_fresh := ht.right_fresh
  right_next := ht.right_next
  right_memo := ht.right_memo

end Twins

theorem describes_entryOf {tokens : Array Token} {start : Nat} {flags : Flags}
    {canon : Parser (Option β)} {Q : Option β → Nat → Prop} {r : Option β × ParseState}
    [Renumber β] (hcanon : Grammar.ruleBody tokens.size (RuleNode.rule β) = Grammar.outcome canon)
    (h : Matches (.same tokens start) next E (.bare tokens start) pre₂ Q
      (canon.eval (.bare tokens flags) (.bare tokens start)) r)
    (hcursor : start ≤ r.2.cursor) (hreach : start ≤ r.2.reach) :
    (entryOf start ⟨tokens, next, flags⟩ pre₂.reports.size r).Describes tokens start := by
  have hbare : (entryOf start ⟨tokens, next, flags⟩ pre₂.reports.size r).bareRun tokens start =
      (Grammar.outcome canon).eval (.bare tokens flags) (.bare tokens start) := by
    simp only [Entry.bareRun, entryOf, hcanon]
  have hvalue : r.1 = (canon.eval (.bare tokens flags) (.bare tokens start)).1 := by
    rw [h.value]
    exact Renumber.renumber_id _
  obtain ⟨new, h₁, h₂⟩ := h.twins.reports
  have hnew : renumber (Window.same tokens start).number new = new := Renumber.renumber_id new
  constructor <;> rw [hbare]
  · simp only [entryOf, hvalue]
    rfl
  · have hc := h.twins.cursor
    simp only [Window.same] at hc
    show start + (r.2.cursor - start) =
      (canon.eval (.bare tokens flags) (.bare tokens start)).2.cursor
    omega
  · have hc := h.twins.reach
    simp only [Window.same] at hc
    show start + (r.2.reach - start + 1) =
      (canon.eval (.bare tokens flags) (.bare tokens start)).2.reach + 1
    omega
  · show (r.2.reports.extract pre₂.reports.size).toList.toArray =
      (canon.eval (.bare tokens flags) (.bare tokens start)).2.reports
    rw [h₁, h₂, hnew]
    simp
  · show r.2.comments = (canon.eval (.bare tokens flags) (.bare tokens start)).2.comments
    rw [h.twins.comments]
    exact Renumber.renumber_id _

theorem watermark_bare {tokens : Array Token} {start known : Nat} {flags : Flags}
    {r : Option β × ParseState} (h : r.2.read = tokens.size) :
    (entryOf start (.bare tokens flags) known r).watermark = 0 := by
  simp [entryOf, idAt, h, ParseContext.bare]

theorem filed_entryOf {tokens : Array Token} {start : Nat} {flags : Flags} {key : TokenId}
    {known : Nat} {r : Option β × ParseState}
    (hdescribes : (entryOf start ⟨tokens, next, flags⟩ known r).Describes tokens start)
    (hkey : idAt tokens start = some key) (hreach : start ≤ r.2.reach)
    (hseen : r.2.reach < r.2.read ∨ r.2.reach = tokens.size ∧ r.2.read = tokens.size)
    (hsize : r.2.read ≤ tokens.size) (hfresh : Ascending tokens r.2.read)
    (hnext : r.2.read = tokens.size ∨ ∀ t ∈ tokens, t.id < next) :
    (entryOf start ⟨tokens, next, flags⟩ known r).Filed tokens next key start where
  key := hkey
  describes := hdescribes
  lookahead := Nat.succ_le_succ (Nat.zero_le _)
  within := by
    simp only [entryOf]
    omega
  boundary := by
    have hend : start + (r.2.reach - start + 1) - 1 = r.2.reach := by omega
    simp only [entryOf, hend]
  watermark := by
    simp only [entryOf]
    cases hid : idAt tokens r.2.read with
    | none => exact Nat.le_refl next
    | some id =>
      obtain ⟨t, ht, rfl⟩ := Option.map_eq_some_iff.mp hid
      obtain ⟨hlt, heq⟩ := Array.getElem?_eq_some_iff.mp ht
      rcases hnext with hsize | hids
      · omega
      · exact Nat.le_of_lt (hids t (heq ▸ Array.getElem_mem hlt))
  marked := by
    intro d id hd hid hlt
    have hplace := lt_of_idAt hid
    simp only [entryOf] at hd ⊢
    cases hunread : idAt tokens r.2.read with
    | none => exact hlt
    | some first => exact hfresh _ _ _ _ (by omega) (Nat.le_refl _) hid hunread

theorem eval_remembered_bare {tokens : Array Token} {flags : Flags} {s : ParseState} {t : Token}
    (body : Parser (Option β)) (hl : tokens[s.cursor]? = some t) (hread : s.read = tokens.size)
    (hmemo : s.memo.Keeps fun _ e => e.watermark = 0) :
    (remembered body).eval (.bare tokens flags) s =
      (runAndFile s.cursor t.id body).eval (.bare tokens flags) s := by
  obtain ⟨read, h₁, h₂, -, ⟨e, hget, hholds, -, -⟩ | ⟨-, heval⟩⟩ :=
    eval_remembered_some (c := .bare tokens flags) body hl
  · have hw := hmemo _ _ (Memo.mem_bucket_of_get? hget).1
    have hkey : idAt tokens s.cursor = some t.id := by rw [idAt, hl]; rfl
    exact absurd (hholds.symm.trans (Entry.holdsAt_eq_false hw hkey)) (by decide)
  · have heq : read = s.read := by
      simp only [ParseContext.bare_tokens] at h₂
      omega
    rw [heval, heq]

variable [Renumber β] {body₁ body₂ canon : Parser (Option β)}

theorem Twins.shift {x : Nat} (ht : Twins w next E pre₁ pre₂ s₁ s₂) :
    Twins (w.shift x) next E pre₁ pre₂ s₁ s₂ :=
  { ht with
    cursor := by have h := ht.cursor; simp only [Window.shift]; omega
    reach := by have h := ht.reach; simp only [Window.shift]; omega }

theorem Twins.unshift {x : Nat} (ht : Twins (w.shift x) next E pre₁ pre₂ s₁ s₂) :
    Twins w next E pre₁ pre₂ s₁ s₂ :=
  { ht with
    cursor := by have h := ht.cursor; simp only [Window.shift] at h; omega
    reach := by have h := ht.reach; simp only [Window.shift] at h; omega }

theorem From.unshift {x k c : Nat} (h : From (w.shift x) (0 + k) c) (hx : m ≤ x) :
    From w (m + k) c := by
  simp only [From, Window.shift] at h ⊢
  omega

theorem twin_unkeyed {x : Nat} {flags : Flags} (hE : Trusted E w.right next)
    (ht : Twins w next E pre₁ pre₂ s₁ s₂) (hlooks : Looks body₁)
    (h : AlikeRule (w.shift x) 0 body₁ body₂) (hx : s₁.cursor = w.i + x) (hm : m ≤ x)
    (hl : w.left[s₁.cursor]? = none)
    (ha : w.Agrees ((remembered body₁).eval (.bare w.left flags) s₁).2.reach) :
    Matches w next E pre₁ pre₂ (fun o => From w (m + o.isSome.toNat))
      ((remembered body₁).eval (.bare w.left flags) s₁)
      ((remembered body₂).eval ⟨w.right, next, flags⟩ s₂) := by
  rw [eval_remembered_none (c := .bare w.left flags) hl,
    readPast_eq (c := .bare w.left flags) _ ht.left_read] at ha ⊢
  have hcovered : s₁.cursor ≤ (body₁.eval (.bare w.left flags) s₁).2.reach := by
    have hon := (h.onward (.bare w.left flags) (looked w.left s₁)).2
    have hle := le_nextReal w.left s₁.cursor
    rw [← hlooks]
    simp only [looked, ParseContext.bare_tokens] at hon ⊢
    omega
  have hr := ha.slot ht.cursor (by omega) hcovered
  rw [hl, Renumber.renumber_none] at hr
  have hsize := Array.getElem?_eq_none_iff.mp hr
  have hread : s₂.read = w.right.size :=
    Nat.le_antisymm ht.right_read (Nat.le_trans hsize ht.right_cursor)
  rw [eval_remembered_none (c := ⟨w.right, next, flags⟩) hr,
    readPast_eq (c := ⟨w.right, next, flags⟩) _ hread]
  have hmatch := h.twin flags hE ht.shift (Nat.le_of_eq hx.symm) (Nat.le_of_eq hx.symm) ha.shift
  exact ⟨hmatch.value, hmatch.twins.unshift, hmatch.place.unshift hm⟩

variable {x : Nat} {flags : Flags} {key₁ key₂ : TokenId}

theorem twin_hit [RenumberNode β] {e : Entry} (ht : Twins w next E pre₁ pre₂ s₁ s₂)
    (hcanon : Grammar.ruleBody w.right.size (RuleNode.rule β) = Grammar.outcome canon)
    (h : AlikeRule (w.shift x) 0 body₁ canon) (hx : s₁.cursor = w.i + x) (hm : m ≤ x)
    (hd : e.Describes w.right s₂.cursor) (hrule : e.rule = RuleNode.rule β)
    (hflags : e.flags = flags)
    (hread : min (s₂.cursor + (e.lookahead - 1) + 1) w.right.size ≤ s₂.read)
    (ha : w.Agrees ((runAndFile s₁.cursor key₁ body₁).eval (.bare w.left flags) s₁).2.reach) :
    Matches w next E pre₁ pre₂ (fun o => From w (m + o.isSome.toNat))
      ((runAndFile s₁.cursor key₁ body₁).eval (.bare w.left flags) s₁)
      (RuleNode.unwrap? e.outcome, replayed s₂.cursor e s₂) := by
  have hbare : e.bareRun w.right s₂.cursor =
      (Grammar.outcome canon).eval (.bare w.right flags) (.bare w.right s₂.cursor) := by
    rw [Entry.bareRun, hrule, hflags, hcanon]
  rw [eval_runAndFile] at ha ⊢
  have hmatch := h.twin flags (trusted_bare w.right) (ht.opened_bare hx) (Nat.le_of_eq hx.symm)
    (Nat.le_of_eq hx.symm) (ha.shift.mono (Nat.le_max_right ..))
  have hb : Twins (w.shift x) 0 (fun _ e => e.watermark = 0) s₁ (.bare w.right s₂.cursor)
      (body₁.eval (.bare w.left flags) (opened s₁.cursor s₁)).2
      (e.bareRun w.right s₂.cursor).2 := by
    rw [hbare]
    exact hmatch.twins
  refine ⟨?_, ht.replayed hd hb (watermark_bare hmatch.twins.left_read) hread,
    hmatch.place.unshift hm⟩
  · have hv : (canon.eval (.bare w.right flags) (.bare w.right s₂.cursor)).1 =
        renumber w.number (body₁.eval (.bare w.left flags) (opened s₁.cursor s₁)).1 := hmatch.value
    rw [hd.outcome, hbare]
    show RuleNode.unwrap? (((canon.eval (.bare w.right flags) (.bare w.right s₂.cursor)).1.map
      RuleNode.wrap).getD .noMatch) = _
    rw [hv]
    exact unwrap?_renumber _ _

theorem twin_miss (hE : Trusted E w.right next) (ht : Twins w next E pre₁ pre₂ s₁ s₂)
    (hcanon : Grammar.ruleBody w.right.size (RuleNode.rule β) = Grammar.outcome canon)
    (h : AlikeRule (w.shift x) 0 body₁ body₂)
    (hright : AlikeRule (.same w.right s₂.cursor) 0 canon body₂)
    (hx : s₁.cursor = w.i + x) (hm : m ≤ x) (hkey : idAt w.right s₂.cursor = some key₂)
    (hread : s₂.cursor < s₂.read)
    (ha : w.Agrees ((runAndFile s₁.cursor key₁ body₁).eval (.bare w.left flags) s₁).2.reach) :
    Matches w next E pre₁ pre₂ (fun o => From w (m + o.isSome.toNat))
      ((runAndFile s₁.cursor key₁ body₁).eval (.bare w.left flags) s₁)
      ((runAndFile s₂.cursor key₂ body₂).eval ⟨w.right, next, flags⟩ s₂) := by
  rw [eval_runAndFile] at ha ⊢
  rw [eval_runAndFile]
  -- Twice twins: the two runs of the rule, and the right one with a bare run of its own place.
  -- The first pair leaves twins behind, the second says what is filed.
  have hmatch := h.twin flags hE (ht.opened hx hread) (Nat.le_of_eq hx.symm) (Nat.le_of_eq hx.symm)
    (ha.shift.mono (Nat.le_max_right ..))
  have hfile := hright.twin flags hE (ht.bare_opened hread) (Nat.le_refl _) (Nat.le_refl _)
    (Window.agrees_same ..)
  have hcursor : (canon.eval (.bare w.right flags) (.bare w.right s₂.cursor)).2.cursor =
      (body₂.eval ⟨w.right, next, flags⟩ (opened s₂.cursor s₂)).2.cursor :=
    Nat.add_right_cancel hfile.twins.cursor
  have hreach : (canon.eval (.bare w.right flags) (.bare w.right s₂.cursor)).2.reach =
      (body₂.eval ⟨w.right, next, flags⟩ (opened s₂.cursor s₂)).2.reach :=
    Nat.add_right_cancel hfile.twins.reach
  have hon : s₂.cursor ≤ (canon.eval (.bare w.right flags) (.bare w.right s₂.cursor)).2.cursor ∧
      s₂.cursor ≤ (canon.eval (.bare w.right flags) (.bare w.right s₂.cursor)).2.reach :=
    hright.onward (.bare w.right flags) (.bare w.right s₂.cursor)
  rw [hcursor, hreach] at hon
  have hd := describes_entryOf hcanon hfile hon.1 hon.2
  have hfiled := filed_entryOf hd hkey hon.2 hfile.twins.right_seen hfile.twins.right_read
    hfile.twins.right_fresh hfile.twins.right_next
  exact ⟨hmatch.value, ht.closed hmatch.twins (watermark_bare hmatch.twins.left_read)
    (hE.filed hfiled), hmatch.place.unshift hm⟩

theorem alike_remembered [RenumberNode β]
    (hcanon : Grammar.ruleBody w.right.size (RuleNode.rule β) = Grammar.outcome canon)
    (hlooks : Looks body₁)
    (h₁₂ : ∀ x ≥ m, AlikeRule (w.shift x) 0 body₁ body₂)
    (h₁ : ∀ x ≥ m, AlikeRule (w.shift x) 0 body₁ canon)
    (h₂ : ∀ x ≥ m, AlikeRule (.same w.right (w.j + x)) 0 canon body₂) :
    AlikeRule w m (remembered body₁) (remembered body₂) where
  onward := (h₁₂ m (Nat.le_refl m)).onward.remembered
  twin := by
    intro next E pre₁ pre₂ s₁ s₂ flags hE ht hi hm ha
    obtain ⟨x, hx⟩ : ∃ x, s₁.cursor = w.i + x := ⟨s₁.cursor - w.i, by omega⟩
    have hxm : m ≤ x := by
      simp only [From] at hm
      omega
    cases hl : w.left[s₁.cursor]? with
    | none => exact twin_unkeyed hE ht hlooks (h₁₂ x hxm) hx hxm hl ha
    | some t =>
      rw [eval_remembered_bare body₁ hl ht.left_read ht.left_memo] at ha ⊢
      have hon := ((h₁₂ x hxm).onward (.bare w.left flags) (opened s₁.cursor s₁)).2
      have hr := ha.slot ht.cursor hi (Nat.le_trans hon (Nat.le_max_right ..))
      rw [hl, Renumber.renumber_some] at hr
      have hkey : idAt w.right s₂.cursor = some (renumber w.number t).id := by
        rw [idAt, hr]
        rfl
      -- No entry of the left side holds, so it runs the rule. The right side may be answered.
      obtain ⟨read, hle, hsize, hseen, hcase⟩ :=
        eval_remembered_some (c := ⟨w.right, next, flags⟩) body₂ hr
      have htr := ht.read hle (Nat.le_trans hsize (Nat.max_le.mpr ⟨ht.right_read, Nat.le_refl _⟩))
      rcases hcase with ⟨e, hget, hholds, hread, heval⟩ | ⟨-, heval⟩
      · obtain ⟨hmem, hrule, hflags⟩ := Memo.mem_bucket_of_get? hget
        have hd := hE.describes (ht.right_memo _ _ hmem) hkey hholds
        rw [heval]
        exact twin_hit htr hcanon (h₁ x hxm) hx hxm hd hrule hflags hread ha
      · have hj : s₂.cursor = w.j + x := by
          have h := ht.cursor
          omega
        have hright := h₂ x hxm
        rw [← hj] at hright
        rw [heval]
        exact twin_miss hE htr hcanon (h₁₂ x hxm) hright hx hxm hkey hseen ha

/-- What the rules `T₁` and `T₂` that are nested in two bodies have to be like, and what they have
to be like to the nested rule `C` of bare runs. All of them run behind the first token of a body. -/
structure Nested {α : Type} [Renumber α] (w : Window) (T₁ T₂ C : Parser (Option α)) : Prop where
  twins : ∀ x m, 1 ≤ m → AlikeRule (w.shift x) m T₁ T₂
  left : ∀ x m, 1 ≤ m → AlikeRule (w.shift x) m T₁ C
  right : ∀ x m, 1 ≤ m → AlikeRule (.same w.right (w.j + x)) m C T₂
  bare : ∀ x m, 1 ≤ m → AlikeRule (.same w.right (w.j + x)) m C C

namespace Nested

variable {α : Type} [Renumber α] {T₁ T₂ C : Parser (Option α)}

theorem here (h : Nested w T₁ T₂ C) (hm : 1 ≤ m) : AlikeRule w m T₁ T₂ := h.twins 0 m hm

theorem shift (h : Nested w T₁ T₂ C) (x : Nat) : Nested (w.shift x) T₁ T₂ C where
  twins y m hm := by
    have hxy := h.twins (x + y) m hm
    rwa [← Window.shift_shift] at hxy
  left y m hm := by
    have hxy := h.left (x + y) m hm
    rwa [← Window.shift_shift] at hxy
  right y m hm := by
    have hxy := h.right (x + y) m hm
    rwa [← Nat.add_assoc] at hxy
  bare y m hm := by
    have hxy := h.bare (x + y) m hm
    rwa [← Nat.add_assoc] at hxy

theorem with_bare (h : Nested w T₁ T₂ C) : Nested w T₁ C C := ⟨h.left, h.left, h.bare, h.bare⟩

theorem of_bare (h : Nested w T₁ T₂ C) : Nested (.same w.right w.j) C T₂ C :=
  ⟨h.right, h.bare, h.right, h.bare⟩

theorem remembered [RenumberNode β] {within : Nat → Parser (Option α)}
    {body : Parser (Option α) → Parser (Option β)}
    (h : ∀ x ≥ m, Nested (w.shift x) T₁ T₂ (within w.right.size))
    (hcanon : ∀ n, Grammar.ruleBody n (RuleNode.rule β) = Grammar.outcome (body (within n)))
    (hlooks : ∀ T, Looks (body T))
    (hbody : ∀ w T₁ T₂, Nested w T₁ T₂ (within w.right.size) →
      AlikeRule w 0 (body T₁) (body T₂)) :
    AlikeRule w m (remembered (body T₁)) (Parser.remembered (body T₂)) :=
  alike_remembered (hcanon w.right.size) (hlooks T₁) (fun x hx => hbody _ _ _ (h x hx))
    (fun x hx => hbody _ _ _ (h x hx).with_bare) fun x hx => hbody _ _ _ (h x hx).of_bare

end Nested

structure Nesting (within : Nat → Parser (Option β))
    (body : Parser (Option β) → Parser (Option β)) : Prop where
  zero : Onward (within 0)
  succ : ∀ d, within (d + 1) = remembered (body (within d))
  bare : ∀ n, Grammar.ruleBody n (RuleNode.rule β) = Grammar.outcome (body (within n))
  looks : ∀ T, Looks (body T)
  alike : ∀ w T₁ T₂, Nested w T₁ T₂ (within w.right.size) → AlikeRule w 0 (body T₁) (body T₂)

namespace Nesting

variable {within : Nat → Parser (Option β)} {body : Parser (Option β) → Parser (Option β)}

theorem onward (h : Nesting within body) (d : Nat) : Onward (within d) := by
  induction d with
  | zero => exact h.zero
  | succ d ih =>
    rw [h.succ]
    have hpast : ∀ {w : Window} {m : Nat} {T₁ T₂ : Parser (Option β)}, Onward T₁ →
        w.left.size = 0 → 1 ≤ m → AlikeRule w m T₁ T₂ :=
      fun hT hsize hm => .of_past hT (.inl (by omega))
    have hnested : Nested ⟨#[], #[], id, 0, 0⟩ (within d) (within 0) (within 0) :=
      ⟨fun _ _ => hpast ih rfl, fun _ _ => hpast ih rfl, fun _ _ => hpast h.zero rfl,
        fun _ _ => hpast h.zero rfl⟩
    exact (h.alike _ _ _ hnested).onward.remembered

theorem alike_within [RenumberNode β] (h : Nesting within body) {w : Window} {m d₁ d₂ : Nat}
    (h₁ : w.left.size < w.i + m + d₁) (h₂ : w.right.size < w.j + m + d₂) :
    AlikeRule w m (within d₁) (within d₂) := by
  obtain ⟨n, hn₁, hn₂⟩ : ∃ n, w.left.size < w.i + m + n ∧ w.right.size < w.j + m + n :=
    ⟨w.left.size + w.right.size + 1, by omega, by omega⟩
  induction n generalizing w m d₁ d₂ with
  | zero => exact .of_past (h.onward d₁) (.inl (by omega))
  | succ n ih =>
    cases d₁ with
    | zero => exact .of_past h.zero (.inl (by omega))
    | succ d₁ =>
      cases d₂ with
      | zero => exact .of_past (h.onward _) (.inr (by omega))
      | succ d₂ =>
        rw [h.succ, h.succ]
        refine Nested.remembered (fun x hx => ?_) h.bare h.looks h.alike
        constructor <;> intro y k hk
        · refine ih ?_ ?_ ?_ ?_ <;> simp only [Window.shift] <;> omega
        · refine ih ?_ ?_ ?_ ?_ <;> simp only [Window.shift] <;> omega
        · refine ih ?_ ?_ ?_ ?_ <;> simp only [Window.shift, Window.same] <;> omega
        · refine ih ?_ ?_ ?_ ?_ <;> simp only [Window.shift, Window.same] <;> omega

theorem nested [RenumberNode β] (h : Nesting within body) {w : Window} {d₁ d₂ : Nat}
    (h₁ : w.left.size < w.i + 1 + d₁) (h₂ : w.right.size < w.j + 1 + d₂) :
    Nested w (within d₁) (within d₂) (within w.right.size) := by
  constructor <;> intro x m hm
  · refine h.alike_within ?_ ?_ <;> simp only [Window.shift] <;> omega
  · refine h.alike_within ?_ ?_ <;> simp only [Window.shift] <;> omega
  · refine h.alike_within ?_ ?_ <;> simp only [Window.same] <;> omega
  · refine h.alike_within ?_ ?_ <;> simp only [Window.same] <;> omega

end Nesting

end Reparse
