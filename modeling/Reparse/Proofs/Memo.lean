import Reparse.Memo

/-!
# Contents of the memo

What a memo holds is said by its buckets. Evicting a token empties its bucket, and filing an entry
adds that entry at most; so a property of all entries on file survives both.
-/

namespace Reparse.Memo

/-- Every entry on file has a property, which may hang on the token it is filed under. -/
def Keeps (m : Memo) (E : TokenId → Entry → Prop) : Prop :=
  ∀ key, ∀ e ∈ m.bucket key, E key e

variable {m : Memo} {E F : TokenId → Entry → Prop}

theorem bucket_empty (key : TokenId) : Memo.empty.bucket key = [] := by
  simp [bucket, Memo.empty]

theorem Keeps.empty : Memo.empty.Keeps E := by
  intro key e he
  simp [bucket_empty] at he

theorem Keeps.mono (h : m.Keeps E) (hEF : ∀ key e, E key e → F key e) : m.Keeps F :=
  fun key e he => hEF key e (h key e he)

theorem mem_bucket_of_get? {key : TokenId} {rule : Rule} {flags : Flags} {e : Entry}
    (h : m.get? key rule flags = some e) : e ∈ m.bucket key ∧ e.rule = rule ∧ e.flags = flags := by
  have hp := List.find?_some h
  simp only [Bool.and_eq_true, decide_eq_true_eq] at hp
  exact ⟨List.mem_of_find?_eq_some h, hp.1, hp.2⟩

theorem bucket_evict (key other : TokenId) :
    (m.evict key).2.bucket other = if key = other then [] else m.bucket other := by
  simp only [evict, bucket, Std.TreeMap.getElem?_erase]
  by_cases h : key = other
  · simp [h]
  · simp [h]

theorem Keeps.evict (h : m.Keeps E) (key : TokenId) : (m.evict key).2.Keeps E := by
  intro other e he
  rw [bucket_evict] at he
  split at he
  · cases he
  · exact h other e he

theorem Keeps.forget (h : m.Keeps E) (ts : List Token) : (m.forget ts).2.Keeps E := by
  induction ts generalizing m with
  | nil => exact h
  | cons t ts ih => exact ih (h.evict t.id)

theorem bucket_forget (ts : List Token) (key : TokenId) :
    (m.forget ts).2.bucket key = if key ∈ ts.map Token.id then [] else m.bucket key := by
  induction ts generalizing m with
  | nil => rfl
  | cons t ts ih =>
    change ((m.evict t.id).2.forget ts).2.bucket key = _
    rw [ih, bucket_evict, List.map_cons]
    by_cases hkey : key ∈ ts.map Token.id
    · rw [if_pos hkey, if_pos (List.mem_cons_of_mem _ hkey)]
    · rw [if_neg hkey]
      by_cases hid : t.id = key
      · rw [if_pos hid, if_pos (List.mem_cons.mpr (.inl hid.symm))]
      · rw [if_neg hid, if_neg fun hmem => (List.mem_cons.mp hmem).elim (Ne.symm hid) hkey]

theorem forget_append (ts us : List Token) :
    m.forget (ts ++ us) = ((m.forget ts).1 + ((m.forget ts).2.forget us).1,
      ((m.forget ts).2.forget us).2) := by
  induction ts generalizing m with
  | nil => simp [forget]
  | cons t ts ih =>
    simp only [List.cons_append, forget, ih, Nat.add_assoc]

theorem mem_put {e f : Entry} {es : List Entry} (h : f ∈ put e es) : f = e ∨ f ∈ es := by
  induction es with
  | nil => simpa [put] using h
  | cons g es ih =>
    simp only [put] at h
    split at h
    · rcases List.mem_cons.mp h with rfl | hf
      · exact .inl rfl
      · exact .inr (List.mem_cons_of_mem _ hf)
    · rcases List.mem_cons.mp h with rfl | hf
      · exact .inr List.mem_cons_self
      · exact (ih hf).imp_right (List.mem_cons_of_mem _)

theorem bucket_insert (key other : TokenId) (e : Entry) :
    (m.insert key e).bucket other =
      if key = other then put e (m.bucket key) else m.bucket other := by
  simp only [insert, bucket, Std.TreeMap.getElem?_insert]
  by_cases h : key = other
  · simp [h]
  · simp [h]

theorem Keeps.insert (h : m.Keeps E) {key : TokenId} {e : Entry} (he : E key e) :
    (m.insert key e).Keeps E := by
  intro other f hf
  rw [bucket_insert] at hf
  split at hf
  next hk =>
    subst hk
    rcases mem_put hf with rfl | hf
    · exact he
    · exact h _ f hf
  next => exact h other f hf

theorem rivals_iff {e f : Entry} : e.rivals f = true ↔ e.rule = f.rule ∧ e.flags = f.flags := by
  rw [Entry.rivals, Bool.and_eq_true, decide_eq_true_eq, decide_eq_true_eq]

theorem find?_put (e : Entry) (es : List Entry) :
    (put e es).find? (fun f => f.rule = e.rule && f.flags = e.flags) = some e := by
  induction es with
  | nil => simp [put]
  | cons f es ih =>
    simp only [put]
    split
    next => simp
    next hrivals =>
      have hother : (decide (f.rule = e.rule) && decide (f.flags = e.flags)) = false := by
        simpa only [Entry.rivals, Bool.not_eq_true] using hrivals
      rw [List.find?_cons, hother]
      exact ih

theorem find?_put_of_ne {e : Entry} {rule : Rule} {flags : Flags}
    (h : ¬(e.rule = rule ∧ e.flags = flags)) (es : List Entry) :
    (put e es).find? (fun f => f.rule = rule && f.flags = flags) =
      es.find? (fun f => f.rule = rule && f.flags = flags) := by
  have hother : (decide (e.rule = rule) && decide (e.flags = flags)) = false := by
    rw [← Bool.not_eq_true, Bool.and_eq_true, decide_eq_true_eq, decide_eq_true_eq]
    exact h
  induction es with
  | nil => rw [put, List.find?_cons, hother]
  | cons f es ih =>
    rw [put]
    split
    next hrivals =>
      obtain ⟨hrule, hflags⟩ := rivals_iff.mp hrivals
      rw [List.find?_cons, List.find?_cons, hrule, hflags, hother]
    next => rw [List.find?_cons, List.find?_cons, ih]

theorem get?_insert {key : TokenId} {e : Entry} :
    (m.insert key e).get? key e.rule e.flags = some e := by
  rw [get?, bucket_insert, if_pos rfl, find?_put]

theorem get?_insert_of_ne {key other : TokenId} {e : Entry} {rule : Rule} {flags : Flags}
    (h : ¬(key = other ∧ e.rule = rule ∧ e.flags = flags)) :
    (m.insert key e).get? other rule flags = m.get? other rule flags := by
  rw [get?, get?, bucket_insert]
  split
  next heq => rw [find?_put_of_ne fun hsame => h ⟨heq, hsame⟩, heq]
  next => rfl

theorem get?_empty (key : TokenId) (rule : Rule) (flags : Flags) :
    Memo.empty.get? key rule flags = none := by
  rw [get?, bucket_empty]
  rfl

theorem get?_eq_of_bucket {n : Memo} {key : TokenId} (h : m.bucket key = n.bucket key) (rule : Rule)
    (flags : Flags) : m.get? key rule flags = n.get? key rule flags := by
  rw [get?, get?, h]

structure Same (m n : Memo) : Prop where
  bucket : ∀ key, m.bucket key = n.bucket key
  size : m.size = n.size

namespace Same

variable {n o : Memo}

theorem refl (m : Memo) : m.Same m := ⟨fun _ => rfl, rfl⟩

theorem trans (h : m.Same n) (h' : n.Same o) : m.Same o :=
  ⟨fun key => (h.bucket key).trans (h'.bucket key), h.size.trans h'.size⟩

theorem get? (h : m.Same n) (key : TokenId) (rule : Rule) (flags : Flags) :
    m.get? key rule flags = n.get? key rule flags := get?_eq_of_bucket (h.bucket key) rule flags

end Same

theorem same_evict {key : TokenId} (h : m.bucket key = []) :
    (m.evict key).1 = 0 ∧ (m.evict key).2.Same m := by
  have hdropped : (m.evict key).1 = 0 := by rw [evict, h]; rfl
  refine ⟨hdropped, fun other => ?_, congrArg (m.size - ·) hdropped⟩
  rw [bucket_evict]
  split
  next heq => rw [← heq, h]
  next => rfl

theorem same_forget (ts : List Token) (h : ∀ t ∈ ts, m.bucket t.id = []) :
    (m.forget ts).1 = 0 ∧ (m.forget ts).2.Same m := by
  induction ts generalizing m with
  | nil => exact ⟨rfl, .refl m⟩
  | cons t ts ih =>
    obtain ⟨hcount, hevict⟩ := same_evict (h t List.mem_cons_self)
    obtain ⟨hcount', hforget⟩ := ih fun u hu =>
      (hevict.bucket u.id).trans (h u (List.mem_cons_of_mem _ hu))
    refine ⟨?_, hforget.trans hevict⟩
    change (m.evict t.id).1 + ((m.evict t.id).2.forget ts).1 = 0
    rw [hcount, hcount']

theorem same_evict_insert {key : TokenId} (h : m.bucket key = []) (e : Entry) :
    ((m.insert key e).evict key).1 = 1 ∧ ((m.insert key e).evict key).2.Same m := by
  have hbucket : (m.insert key e).bucket key = [e] := by
    rw [bucket_insert, if_pos rfl, h]
    rfl
  have hdropped : ((m.insert key e).evict key).1 = 1 := by rw [evict, hbucket]; rfl
  refine ⟨hdropped, fun other => ?_, ?_⟩
  · rw [bucket_evict, bucket_insert]
    split
    next heq => rw [← heq, h]
    next => rfl
  · change (m.insert key e).size - ((m.insert key e).evict key).1 = m.size
    rw [hdropped, insert, h]
    rfl

theorem same_forget_insert (t : Token) (ts : List Token) (h : ∀ u ∈ t :: ts, m.bucket u.id = [])
    (e : Entry) : ((m.insert t.id e).forget (t :: ts)).1 = 1 ∧
      ((m.insert t.id e).forget (t :: ts)).2.Same m := by
  obtain ⟨hcount, hevict⟩ := same_evict_insert (h t List.mem_cons_self) e
  obtain ⟨hcount', hforget⟩ := same_forget ts fun u hu =>
    (hevict.bucket u.id).trans (h u (List.mem_cons_of_mem _ hu))
  refine ⟨?_, hforget.trans hevict⟩
  change ((m.insert t.id e).evict t.id).1 + (((m.insert t.id e).evict t.id).2.forget ts).1 = 1
  rw [hcount, hcount']

end Reparse.Memo
