import Mathlib.Data.List.Nodup
import Reparse.Proofs.Grammar.Alike.Rules

/-!
# Validity of kept results

Tokens never change places, and new ones are numbered from the next number on. So the tokens that
are older than an entry are, in the present stream, a sublist of the tokens it was filed among. A
run of old tokens that begins with the key and ends with the boundary, and is as long as the run
that the rule looked at, is that run.
-/

namespace Reparse

open Reparse.Parser

def below (mark : TokenId) (ts : List Token) : List Token := ts.filter fun t => t.id < mark

section Sublists

variable {l : List Token} {A : List Token} {i : Nat}

theorem eq_of_id (hA : (A.map Token.id).Nodup) {t u : Token} (ht : t ∈ A) (hu : u ∈ A)
    (h : t.id = u.id) : t = u := List.inj_on_of_nodup_map hA ht hu h

theorem index_eq (hA : (A.map Token.id).Nodup) {t : Token} {j : Nat} (hi : A[i]? = some t)
    (hj : A[j]? = some t) : i = j := by
  obtain ⟨hi', rfl⟩ := List.getElem?_eq_some_iff.mp hi
  obtain ⟨hj', heq⟩ := List.getElem?_eq_some_iff.mp hj
  have hnodup : A.Nodup := .of_map _ hA
  exact (hnodup.getElem_inj_iff.mp heq).symm

theorem sublist_drop (hA : (A.map Token.id).Nodup) {t : Token} (h : (t :: l).Sublist A)
    (hi : A[i]? = some t) : (t :: l).Sublist (A.drop i) := by
  obtain ⟨r₁, r₂, rfl, ht, hl⟩ := List.cons_sublist_iff.mp h
  obtain ⟨j, hj⟩ := List.mem_iff_getElem?.mp ht
  have hjlt : j < r₁.length := (List.getElem?_eq_some_iff.mp hj).1
  have hij : i = j := index_eq hA hi (by rw [List.getElem?_append_left hjlt, hj])
  subst hij
  rw [List.drop_append_of_le_length (by omega)]
  refine List.cons_sublist_iff.mpr ⟨r₁.drop i, r₂, rfl, ?_, hl⟩
  exact List.mem_iff_getElem?.mpr ⟨0, by rw [List.getElem?_drop]; exact hj⟩

theorem sublist_take (hA : (A.map Token.id).Nodup) {t : Token} (h : (l ++ [t]).Sublist A)
    (hi : A[i]? = some t) : l.Sublist (A.take i) := by
  obtain ⟨r₁, r₂, rfl, hl, ht⟩ := List.append_sublist_iff.mp h
  obtain ⟨j, hj⟩ := List.mem_iff_getElem?.mp (List.singleton_sublist.mp ht)
  have hij : i = r₁.length + j :=
    index_eq hA hi (by rw [List.getElem?_append_right (by omega), Nat.add_sub_cancel_left, hj])
  have htake : (r₁ ++ r₂).take i = r₁ ++ r₂.take j := by
    rw [hij, List.take_append, List.take_of_length_le (Nat.le_add_right ..),
      Nat.add_sub_cancel_left]
  rw [htake]
  exact hl.trans (List.sublist_append_left ..)

end Sublists

namespace Entry

variable {e : Entry} {look : Nat → Option TokenId} {A B : Array Token} {i j : Nat} {key : TokenId}

theorem verifyFrom_true {more index : Nat} (h : (e.verifyFrom look more index).1 = true) :
    (∀ k < more, ∃ id, look (index + k) = some id ∧ id < e.watermark) ∧
      ((look (index + more) = none ∧ e.boundary = none) ∨
        ∃ id, look (index + more) = some id ∧ id < e.watermark ∧ e.boundary = some id) := by
  induction more generalizing index with
  | zero =>
    refine ⟨fun k hk => absurd hk (Nat.not_lt_zero k), ?_⟩
    simp only [verifyFrom, Nat.add_zero] at h ⊢
    cases hl : look index with
    | none => simpa [hl] using h
    | some id => simpa [hl] using h
  | succ more ih =>
    simp only [verifyFrom] at h
    cases hl : look index with
    | none => simp [hl] at h
    | some id =>
      rw [hl] at h
      simp only at h
      split at h
      next hid =>
        obtain ⟨hold, hend⟩ := ih h
        rw [show index + 1 + more = index + (more + 1) by omega] at hend
        refine ⟨fun k hk => ?_, hend⟩
        cases k with
        | zero => exact ⟨id, hl, hid⟩
        | succ k =>
          rw [show index + (k + 1) = index + 1 + k by omega]
          exact hold k (by omega)
      next => cases h

def looked (e : Entry) (tokens : Array Token) (start : Nat) : List Token :=
  (tokens.toList.drop start).take (e.lookahead - 1)

theorem getElem?_looked {k : Nat} (hk : k < e.lookahead - 1) :
    (e.looked B j)[k]? = B[j + k]? := by
  rw [looked, List.getElem?_take_of_lt hk, List.getElem?_drop, Array.getElem?_toList]

theorem id_of_idAt {k : Nat} {id : TokenId} (h : idAt B k = some id) :
    ∃ t, B[k]? = some t ∧ t.id = id := Option.map_eq_some_iff.mp h

theorem run_sublist {mark : TokenId} {n : Nat}
    (hsub : (below mark B.toList).Sublist A.toList)
    (hold : ∀ t ∈ (B.toList.drop j).take n, t.id < mark) :
    ((B.toList.drop j).take n).Sublist A.toList := by
  have hsplit : B.toList = B.toList.take j ++ ((B.toList.drop j).take n ++
      (B.toList.drop j).drop n) := by
    rw [List.take_append_drop, List.take_append_drop]
  have hrun : below mark ((B.toList.drop j).take n) = (B.toList.drop j).take n :=
    List.filter_eq_self.mpr fun t ht => by simpa using hold t ht
  refine List.Sublist.trans ?_ hsub
  rw [hsplit]
  simp only [below, List.filter_append] at hrun ⊢
  rw [← hsplit, hrun]
  exact (List.sublist_append_left ..).trans (List.sublist_append_right ..)

theorem run_sublist_drop {mark : TokenId} {n : Nat} (hA : (A.toList.map Token.id).Nodup)
    (hsub : (below mark B.toList).Sublist A.toList)
    (hold : ∀ t ∈ (B.toList.drop j).take (n + 1), t.id < mark) (hi : idAt A i = some key)
    (hj : idAt B j = some key) :
    ((B.toList.drop j).take (n + 1)).Sublist (A.toList.drop i) := by
  have hrun := run_sublist hsub hold
  obtain ⟨a, ha, hakey⟩ := id_of_idAt hi
  obtain ⟨b, hb, hbkey⟩ := id_of_idAt hj
  rw [← Array.getElem?_toList] at ha hb
  obtain ⟨hlt, hget⟩ := List.getElem?_eq_some_iff.mp hb
  have hcons : (B.toList.drop j).take (n + 1) = b :: (B.toList.drop (j + 1)).take n := by
    rw [List.drop_eq_getElem_cons hlt, hget, List.take_succ_cons]
  rw [hcons] at hrun ⊢
  have hba : b = a := eq_of_id hA (hrun.subset List.mem_cons_self) (List.mem_of_getElem? ha)
    (hbkey.trans hakey.symm)
  exact sublist_drop hA hrun (hba ▸ ha)

theorem mem_take {n : Nat} {t : Token} (ht : t ∈ (B.toList.drop j).take n)
    (hold : ∀ k < n, ∃ id, idAt B (j + k) = some id ∧ id < e.watermark) :
    t.id < e.watermark := by
  obtain ⟨k, hk⟩ := List.mem_iff_getElem?.mp ht
  have hlt : k < n := by
    have hlen := (List.getElem?_eq_some_iff.mp hk).1
    simp only [List.length_take] at hlen
    omega
  rw [List.getElem?_take_of_lt hlt, List.getElem?_drop, Array.getElem?_toList] at hk
  obtain ⟨id, hid, hlt⟩ := hold k hlt
  rw [idAt, hk] at hid
  cases hid
  exact hlt

theorem length_take {n : Nat} (hold : ∀ k < n, ∃ id, idAt B (j + k) = some id ∧ id < e.watermark) :
    ((B.toList.drop j).take n).length = n := by
  cases n with
  | zero => rfl
  | succ n =>
    obtain ⟨id, hid, -⟩ := hold n (Nat.lt_succ_self n)
    obtain ⟨t, ht, -⟩ := id_of_idAt hid
    have hlt : j + n < B.size := (Array.getElem?_eq_some_iff.mp ht).1
    simp only [List.length_take, List.length_drop, Array.length_toList]
    omega

theorem looked_eq_of_end (hA : (A.toList.map Token.id).Nodup)
    (hsub : (below e.watermark B.toList).Sublist A.toList) (hi : idAt A i = some key)
    (hj : idAt B j = some key)
    (hold : ∀ k < e.lookahead - 1, ∃ id, idAt B (j + k) = some id ∧ id < e.watermark)
    (hendA : A[i + (e.lookahead - 1)]? = none) (hendB : B[j + (e.lookahead - 1)]? = none) :
    e.looked B j = e.looked A i := by
  have hlength : (e.looked B j).length = e.lookahead - 1 := length_take hold
  obtain ⟨n, hn⟩ : ∃ n, e.lookahead - 1 = n + 1 := by
    refine Nat.exists_eq_succ_of_ne_zero fun hzero => ?_
    rw [hzero, Nat.add_zero] at hendB
    exact absurd (hj.symm.trans (Option.map_eq_none_iff.mpr hendB)) (Option.some_ne_none key)
  have hrun : (e.looked B j).Sublist (A.toList.drop i) := by
    simp only [looked, hn] at hold ⊢
    exact run_sublist_drop hA hsub (fun t ht => mem_take ht hold) hi hj
  have hsize : A.toList.length ≤ i + (e.lookahead - 1) := by
    rw [Array.length_toList]
    exact Array.getElem?_eq_none_iff.mp hendA
  have hall : e.looked A i = A.toList.drop i :=
    List.take_of_length_le (by rw [List.length_drop]; omega)
  rw [hall]
  exact hrun.eq_of_length_le (by rw [List.length_drop, hlength]; omega)

theorem looked_eq_of_boundary {id : TokenId} (hA : (A.toList.map Token.id).Nodup)
    (hsub : (below e.watermark B.toList).Sublist A.toList) (hi : idAt A i = some key)
    (hj : idAt B j = some key)
    (hold : ∀ k < e.lookahead - 1, ∃ id, idAt B (j + k) = some id ∧ id < e.watermark)
    (hlt : id < e.watermark) (hidA : idAt A (i + (e.lookahead - 1)) = some id)
    (hidB : idAt B (j + (e.lookahead - 1)) = some id) :
    e.looked B j = e.looked A i ∧
      B[j + (e.lookahead - 1)]? = A[i + (e.lookahead - 1)]? := by
  obtain ⟨t, ht, htid⟩ := id_of_idAt hidB
  obtain ⟨a, ha, haid⟩ := id_of_idAt hidA
  have hholdAll : ∀ k < e.lookahead - 1 + 1,
      ∃ id, idAt B (j + k) = some id ∧ id < e.watermark := by
    intro k hk
    rcases Nat.lt_succ_iff_lt_or_eq.mp hk with hk | rfl
    · exact hold k hk
    · exact ⟨id, hidB, hlt⟩
  have hrun := run_sublist_drop hA hsub (fun t ht => mem_take ht hholdAll) hi hj
  have hsnoc : (B.toList.drop j).take (e.lookahead - 1 + 1) = e.looked B j ++ [t] := by
    rw [List.take_add_one, List.getElem?_drop, Array.getElem?_toList, ht]
    rfl
  rw [hsnoc] at hrun
  have hmem : t ∈ A.toList :=
    List.mem_of_mem_drop (hrun.subset (List.mem_append_right _ List.mem_cons_self))
  rw [← Array.getElem?_toList] at ha
  have hta : t = a := eq_of_id hA hmem (List.mem_of_getElem? ha) (htid.trans haid.symm)
  have hdrop : ((A.toList.drop i).map Token.id).Nodup :=
    hA.sublist ((List.drop_sublist i A.toList).map _)
  have hlast : (A.toList.drop i)[e.lookahead - 1]? = some t := by
    rw [List.getElem?_drop, ha, hta]
  refine ⟨(sublist_take hdrop hrun hlast).eq_of_length_le ?_, ?_⟩
  · have hlength : (e.looked B j).length = e.lookahead - 1 := length_take hold
    rw [hlength]
    exact List.length_take_le ..
  · rw [ht, ← Array.getElem?_toList, ha, hta]

theorem looked_eq (hA : (A.toList.map Token.id).Nodup)
    (hsub : (below e.watermark B.toList).Sublist A.toList) (hi : idAt A i = some key)
    (hj : idAt B j = some key) (hboundary : e.boundary = idAt A (i + (e.lookahead - 1)))
    (h : e.holdsAt (idAt B) j = true) :
    e.looked B j = e.looked A i ∧
      B[j + (e.lookahead - 1)]? = A[i + (e.lookahead - 1)]? := by
  obtain ⟨hold, hend⟩ := verifyFrom_true h
  rcases hend with ⟨hnone, hb⟩ | ⟨id, hid, hlt, hb⟩
  · have hendB : B[j + (e.lookahead - 1)]? = none := Option.map_eq_none_iff.mp hnone
    have hendA : A[i + (e.lookahead - 1)]? = none :=
      Option.map_eq_none_iff.mp (hboundary.symm.trans hb)
    exact ⟨looked_eq_of_end hA hsub hi hj hold hendA hendB, hendB.trans hendA.symm⟩
  · exact looked_eq_of_boundary hA hsub hi hj hold hlt (hboundary.symm.trans hb) hid

theorem slots_eq (hA : (A.toList.map Token.id).Nodup)
    (hsub : (below e.watermark B.toList).Sublist A.toList) (hi : idAt A i = some key)
    (hj : idAt B j = some key) (hboundary : e.boundary = idAt A (i + (e.lookahead - 1)))
    (h : e.holdsAt (idAt B) j = true) {k : Nat} (hk : k ≤ e.lookahead - 1) :
    B[j + k]? = A[i + k]? := by
  obtain ⟨hlooked, hend⟩ := looked_eq hA hsub hi hj hboundary h
  rcases Nat.lt_or_eq_of_le hk with hk | rfl
  · rw [← getElem?_looked hk, ← getElem?_looked hk, hlooked]
  · exact hend

theorem agrees_of_holdsAt (hA : (A.toList.map Token.id).Nodup)
    (hsub : (below e.watermark B.toList).Sublist A.toList) (hi : idAt A i = some key)
    (hj : idAt B j = some key) (hboundary : e.boundary = idAt A (i + (e.lookahead - 1)))
    (h : e.holdsAt (idAt B) j = true) :
    (Window.mk A B id i j).Agrees (i + (e.lookahead - 1)) := by
  obtain ⟨t, ht, -⟩ := id_of_idAt hi
  refine Window.agrees_of_slots (Array.getElem?_eq_some_iff.mp ht).1 fun k hk => ?_
  rw [slots_eq hA hsub hi hj hboundary h hk]
  exact (Renumber.renumber_id _).symm

end Entry

/-- The tokens `A` are those among which an entry was filed at `i`, and as many of them as are older
than the entry and still there are still in order. -/
structure SoundFrom (tokens : Array Token) (next key : TokenId) (e : Entry) (A : Array Token)
    (n : TokenId) (i : Nat) : Prop where
  filed : e.Filed A n key i
  next_le : n ≤ next
  nodup : (A.toList.map Token.id).Nodup
  lt_next : ∀ t ∈ A.toList, t.id < n
  sublist : (below e.watermark tokens.toList).Sublist A.toList

theorem SoundFrom.lt_watermark {tokens A : Array Token} {next key n : TokenId} {e : Entry} {i : Nat}
    (h : SoundFrom tokens next key e A n i) {d : Nat} {id : TokenId} (hd : d < e.lookahead)
    (hid : idAt A (i + d) = some id) : id < e.watermark := by
  obtain ⟨t, ht, rfl⟩ := Entry.id_of_idAt hid
  exact h.filed.marked hd hid (h.lt_next t (Array.mem_toList_iff.mpr (Array.mem_of_getElem? ht)))

/-- An entry that described its place when it was filed, and the older tokens of which are still in
order. -/
def Sound (tokens : Array Token) (next : TokenId) (key : TokenId) (e : Entry) : Prop :=
  ∃ A n i, SoundFrom tokens next key e A n i

theorem Entry.Filed.boundary_eq {e : Entry} {A : Array Token} {n key : TokenId} {i : Nat}
    (h : e.Filed A n key i) : e.boundary = idAt A (i + (e.lookahead - 1)) := by
  have hpos := h.lookahead
  rw [h.boundary, Nat.add_sub_assoc hpos]

theorem trusted_sound {tokens : Array Token} {next : TokenId}
    (hnodup : (tokens.toList.map Token.id).Nodup) (hlt : ∀ t ∈ tokens.toList, t.id < next) :
    Trusted (Sound tokens next) tokens next where
  describes := by
    rintro key e start ⟨A, n, i, hfiled, -, hA, -, hsub⟩ hkey hholds
    have hboundary := hfiled.boundary_eq
    have hend : i + e.lookahead - 1 = i + (e.lookahead - 1) := Nat.add_sub_assoc hfiled.lookahead i
    have ha := Entry.agrees_of_holdsAt hA hsub hfiled.key hkey hboundary hholds
    rw [← hend] at ha
    obtain ⟨t, ht, -⟩ := Entry.id_of_idAt hfiled.key
    obtain ⟨u, hu, -⟩ := Entry.id_of_idAt hkey
    exact hfiled.describes.transfer (Nat.le_of_lt (Array.getElem?_eq_some_iff.mp ht).1)
      (Nat.le_of_lt (Array.getElem?_eq_some_iff.mp hu).1) ha
  filed hfiled := ⟨_, _, _, hfiled, Nat.le_refl next, hnodup, hlt, List.filter_sublist⟩

theorem below_below {mark next : TokenId} (h : mark ≤ next) (ts : List Token) :
    below mark (below next ts) = below mark ts := by
  simp only [below, List.filter_filter]
  refine List.filter_congr fun t _ => ?_
  by_cases ht : t.id < mark
  · simp [ht, Nat.lt_of_lt_of_le ht h]
  · simp [ht]

end Reparse
