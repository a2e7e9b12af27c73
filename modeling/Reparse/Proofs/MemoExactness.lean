import Reparse.Proofs.MemoTransparency

/-!
# Validity of kept results is exact

Verifying an entry looks at two marks only: that the tokens from its key on are old, and that the
last of them is the boundary. Tokens are never renumbered and never change places, so that is as good
as comparing every token with the one that was there when the entry was filed.
-/

namespace Reparse

open Reparse.Parser

theorem idAt_inj {A : Array Token} (hA : (A.toList.map Token.id).Nodup) {i j : Nat} {id : TokenId}
    (hi : idAt A i = some id) (hj : idAt A j = some id) : i = j := by
  obtain ⟨t, ht, htid⟩ := Entry.id_of_idAt hi
  obtain ⟨u, hu, huid⟩ := Entry.id_of_idAt hj
  rw [← Array.getElem?_toList] at ht hu
  have hsame : u = t :=
    eq_of_id hA (List.mem_of_getElem? hu) (List.mem_of_getElem? ht) (huid.trans htid.symm)
  exact index_eq hA ht (hsame ▸ hu)

namespace Entry

variable {e : Entry} {look : Nat → Option TokenId} {A B : Array Token} {i j : Nat}
  {key n : TokenId}

theorem verifyFrom_iff {more index : Nat} :
    (e.verifyFrom look more index).1 = true ↔
      (∀ k < more, ∃ id, look (index + k) = some id ∧ id < e.watermark) ∧
        ((look (index + more) = none ∧ e.boundary = none) ∨
          ∃ id, look (index + more) = some id ∧ id < e.watermark ∧ e.boundary = some id) := by
  refine ⟨verifyFrom_true, ?_⟩
  rintro ⟨hold, hend⟩
  induction more generalizing index with
  | zero =>
    simp only [verifyFrom, Nat.add_zero] at hend ⊢
    rcases hend with ⟨hlook, hboundary⟩ | ⟨id, hlook, hlt, hboundary⟩
    · simp [hlook, hboundary]
    · simp [hlook, hlt, hboundary]
  | succ more ih =>
    obtain ⟨id, hlook, hlt⟩ := hold 0 (Nat.succ_pos more)
    rw [Nat.add_zero] at hlook
    simp only [verifyFrom, hlook, hlt, if_true]
    refine ih (fun k hk => ?_) ?_
    · rw [Nat.add_assoc, Nat.add_comm 1 k]
      exact hold (k + 1) (Nat.succ_lt_succ hk)
    · rwa [Nat.add_assoc, Nat.add_comm 1 more]

theorem Filed.exists_slot (h : e.Filed A n key i) {d : Nat} (hd : d + 1 < e.lookahead) :
    ∃ id, idAt A (i + d) = some id := by
  have hwithin := h.within
  have hlt : i + d < A.size := by omega
  exact ⟨A[i + d].id, by rw [idAt, Array.getElem?_eq_getElem hlt]; rfl⟩

theorem holdsAt_iff {next : TokenId} (h : SoundFrom B next key e A n i)
    (hj : idAt B j = some key) :
    e.holdsAt (idAt B) j = true ↔ ∀ d < e.lookahead, idAt B (j + d) = idAt A (i + d) := by
  have hpos := h.filed.lookahead
  constructor
  · intro hholds d hd
    have hslot := slots_eq h.nodup h.sublist h.filed.key hj h.filed.boundary_eq hholds
      (k := d) (by omega)
    rw [idAt, idAt, hslot]
  · intro hsame
    have hold : ∀ {d id}, d < e.lookahead → idAt B (j + d) = some id → id < e.watermark := by
      intro d id hd hid
      exact h.lt_watermark hd ((hsame d hd).symm.trans hid)
    refine verifyFrom_iff.mpr ⟨fun k hk => ?_, ?_⟩
    · obtain ⟨id, hid⟩ := h.filed.exists_slot (d := k) (by omega)
      rw [← hsame k (by omega)] at hid
      exact ⟨id, hid, hold (by omega) hid⟩
    · rw [h.filed.boundary_eq, ← hsame (e.lookahead - 1) (by omega)]
      cases hlast : idAt B (j + (e.lookahead - 1)) with
      | none => exact .inl ⟨rfl, rfl⟩
      | some id => exact .inr ⟨id, rfl, hold (by omega) hlast, rfl⟩

end Entry

namespace Session

variable {s : Session} {key : TokenId} {e : Entry} {i : Nat}

theorem origin_parse (h : s.Valid) (he : e ∈ (s.apply .parse).memo.bucket key) :
    e ∈ s.memo.bucket key ∨
      ∃ i, e.Filed s.stream.readAll.tokens s.stream.readAll.nextId key i := by
  have hread := h.follows (TokenStream.follows_readAll h.numbered)
  have hE : Trusted (fun key e => Sound s.stream.readAll.tokens s.stream.readAll.nextId key e ∧
      (e ∈ s.memo.bucket key ∨
        ∃ i, e.Filed s.stream.readAll.tokens s.stream.readAll.nextId key i))
      s.stream.readAll.tokens s.stream.readAll.nextId :=
    ⟨fun hsound => (trusted h).describes hsound.1, fun hfiled =>
      ⟨(trusted h).filed hfiled, .inr ⟨_, hfiled⟩⟩⟩
  obtain ⟨read, hmatch⟩ := matches_parse h.numbered hE fun key e he => ⟨hread.memo key e he, .inl he⟩
  exact (hmatch.twins.right_memo key e he).2

theorem soundFrom_parse (h : s.Valid) (he : e ∈ (s.apply .parse).memo.bucket key)
    (hkey : idAt (s.apply .parse).stream.tokens i = some key)
    (hnew : e ∈ s.memo.bucket key → e.holdsAt (idAt (s.apply .parse).stream.tokens) i = true) :
    ∃ A n j, SoundFrom (s.apply .parse).stream.tokens (s.apply .parse).stream.nextId key e A n j ∧
      ∀ d < e.lookahead, idAt (s.apply .parse).stream.tokens (i + d) = idAt A (j + d) := by
  have hvalid := h.apply .parse
  rcases origin_parse h he with hbefore | ⟨j, hfiled⟩
  · obtain ⟨A, n, j, hfrom⟩ := hvalid.memo key e he
    exact ⟨A, n, j, hfrom, (Entry.holdsAt_iff hfrom hkey).mp (hnew hbefore)⟩
  · have hij : i = j := idAt_inj hvalid.numbered.nodup hkey hfiled.key
    refine ⟨_, _, j, ⟨hfiled, Nat.le_refl _, hvalid.numbered.nodup, hvalid.numbered.lt_next,
      List.filter_sublist⟩, fun d _ => ?_⟩
    rw [hij]
    rfl

/-- An entry that a parse files for the token at index `i`, or finds to hold there, holds later on
for that token at index `j` if and only if every token looked at is where it was, counted from the
key, and so is the end of input if that was looked at: only the last one can have been that. -/
theorem holdsAt_iff_same_slots (source : Text) (before after : List SessionOp) (key : TokenId)
    (e : Entry) (i j : Nat) :
    let s := (ofSource source).run before
    let filed := s.apply .parse
    let now := (filed.run after).stream.readAll.tokens
    e ∈ filed.memo.bucket key →
      (e ∈ s.memo.bucket key → e.holdsAt (idAt filed.stream.tokens) i = true) →
      idAt filed.stream.tokens i = some key → idAt now j = some key →
        (e.holdsAt (idAt now) j = true ↔
          ∀ d < e.lookahead, idAt now (j + d) = idAt filed.stream.tokens (i + d)) ∧
        ∀ d, d + 1 < e.lookahead → (idAt filed.stream.tokens (i + d)).isSome = true := by
  intro s filed now he hnew hkey hlater
  have hs : s.Valid := (valid_ofSource source).run before
  have hfiled : filed.Valid := hs.apply .parse
  obtain ⟨A, n, a, hfrom, hslots⟩ := soundFrom_parse hs he hkey hnew
  have hrun := follows_run hfiled.numbered after
  have hread := TokenStream.follows_readAll hrun.numbered
  refine ⟨?_, fun d hd => ?_⟩
  · rw [Entry.holdsAt_iff ((hfrom.follows hrun).follows hread) hlater]
    exact forall₂_congr fun d hd => by rw [hslots d hd]
  · obtain ⟨id, hid⟩ := hfrom.filed.exists_slot hd
    rw [hslots d (by omega), hid]
    rfl

theorem holdsAt_iff_same_slots_broken_off :
    let filed := ((ofSource ['l', 'e', 't']).run []).apply .parse
    let now := (filed.run [.mutate 0 0 [' ']]).stream.readAll.tokens
    ∃ e ∈ filed.memo.bucket 0,
      e.holdsAt (idAt now) 1 = true ↔
        ∀ d < e.lookahead, idAt now (1 + d) = idAt filed.stream.tokens (0 + d) := by
  intro filed now
  have hsome : filed.memo.bucket 0 ≠ [] := by
    have hlength : (filed.memo.bucket 0).length ≠ 0 := by decide +kernel
    exact fun hnone => hlength (congrArg List.length hnone)
  obtain ⟨e, he⟩ := List.exists_mem_of_ne_nil _ hsome
  have hkey : idAt filed.stream.tokens 0 = some 0 := by decide +kernel
  have hlater : idAt now 1 = some 0 := by decide +kernel
  have hempty : ((ofSource ['l', 'e', 't']).run []).memo.bucket 0 = [] := Memo.bucket_empty 0
  have hnew : e ∈ ((ofSource ['l', 'e', 't']).run []).memo.bucket 0 →
      e.holdsAt (idAt filed.stream.tokens) 0 = true := by
    rw [hempty]
    exact fun hbefore => absurd hbefore List.not_mem_nil
  exact ⟨e, he, (holdsAt_iff_same_slots ['l', 'e', 't'] [] [.mutate 0 0 [' ']] 0 e 0 1 he hnew hkey
    hlater).1⟩

end Session

end Reparse
