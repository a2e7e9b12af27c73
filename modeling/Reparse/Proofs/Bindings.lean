import Mathlib.Data.Set.Card
import Reparse.Proofs.Memo

/-!
# The memo is a finite map

A memo keeps its entries in buckets and counts them beside. Seen from outside it is a finite map: an
entry is bound to the token, the rule and the flags it was filed under last, until it is dropped.
The count is the number of bindings, and what dropping gives is the number of those that are gone.
-/

namespace Reparse

structure Label where
  key : TokenId
  rule : Rule
  flags : Flags
  deriving DecidableEq, Repr

def Entry.label (key : TokenId) (e : Entry) : Label := ⟨key, e.rule, e.flags⟩

inductive MemoOp
  | insert (key : TokenId) (e : Entry)
  | evict (key : TokenId)
  | forget (tokens : List Token)
  | clear
  deriving Repr

/-- A map from labels to entries. -/
abbrev Bindings := Label → Option Entry

namespace Bindings

def empty : Bindings := fun _ => none

def bound (b : Bindings) : Set Label := {label | b label ≠ none}

def apply (b : Bindings) : MemoOp → Bindings
  | .insert key e => Function.update b (e.label key) (some e)
  | .evict key => fun label => if label.key = key then none else b label
  | .forget tokens => fun label => if label.key ∈ tokens.map Token.id then none else b label
  | .clear => empty

def under (b : Bindings) (key : TokenId) : Set Label := {label ∈ b.bound | label.key = key}

variable {b : Bindings} {key : TokenId} {label : Label}

theorem mem_bound : label ∈ b.bound ↔ b label ≠ none := Iff.rfl

theorem mem_under : label ∈ b.under key ↔ label ∈ b.bound ∧ label.key = key := Iff.rfl

theorem under_subset (b : Bindings) (key : TokenId) : b.under key ⊆ b.bound :=
  fun _ hlabel => hlabel.1

theorem apply_evict (b : Bindings) (key : TokenId) (label : Label) :
    b.apply (.evict key) label = if label.key = key then none else b label := rfl

theorem apply_forget (b : Bindings) (tokens : List Token) (label : Label) :
    b.apply (.forget tokens) label =
      if label.key ∈ tokens.map Token.id then none else b label := rfl

theorem bound_evict (b : Bindings) (key : TokenId) :
    (b.apply (.evict key)).bound = b.bound \ b.under key := by
  ext label
  rw [Set.mem_sdiff, mem_under, mem_bound, apply_evict, mem_bound]
  by_cases hkey : label.key = key
  · simp [hkey]
  · simp [hkey]

theorem bound_insert (b : Bindings) (key : TokenId) (e : Entry) :
    (b.apply (.insert key e)).bound = insert (e.label key) b.bound := by
  ext label
  rw [Set.mem_insert_iff, mem_bound, mem_bound, apply]
  by_cases hlabel : label = e.label key
  · simp [hlabel]
  · simp [hlabel]

theorem bound_forget_subset (b : Bindings) (tokens : List Token) :
    (b.apply (.forget tokens)).bound ⊆ b.bound := by
  intro label hlabel
  rw [mem_bound, apply_forget] at hlabel
  split at hlabel
  · exact absurd rfl hlabel
  · exact hlabel

theorem apply_forget_cons (b : Bindings) (t : Token) (ts : List Token) :
    b.apply (.forget (t :: ts)) = (b.apply (.evict t.id)).apply (.forget ts) := by
  funext label
  by_cases hkey : label.key = t.id
  · simp [apply, hkey]
  · simp [apply, hkey]

end Bindings

namespace Memo

def apply (m : Memo) : MemoOp → Memo
  | .insert key e => m.insert key e
  | .evict key => (m.evict key).2
  | .forget tokens => (m.forget tokens).2
  | .clear => .empty

/-- The memo holds these bindings, each once, and counts them. -/
structure Represents (m : Memo) (b : Bindings) : Prop where
  get : ∀ label, m.get? label.key label.rule label.flags = b label
  distinct : ∀ key, ((m.bucket key).map (Entry.label key)).Nodup
  size : b.bound.encard = m.size

variable {m m' : Memo} {b b' : Bindings} {key : TokenId} {e : Entry}

theorem get?_ne_none_iff {label : Label} : m.get? label.key label.rule label.flags ≠ none ↔
    label ∈ (m.bucket label.key).map (Entry.label label.key) := by
  obtain ⟨key, rule, flags⟩ := label
  rw [← Option.isSome_iff_ne_none, get?, List.find?_isSome, List.mem_map]
  refine exists_congr fun e => and_congr_right fun _ => ?_
  rw [Bool.and_eq_true, decide_eq_true_eq, decide_eq_true_eq, Entry.label, Label.mk.injEq,
    and_iff_right rfl]

theorem map_label_put (key : TokenId) (e : Entry) (es : List Entry) :
    (put e es).map (Entry.label key) =
      if e.label key ∈ es.map (Entry.label key) then es.map (Entry.label key)
      else es.map (Entry.label key) ++ [e.label key] := by
  have hlabel {f : Entry} : f.rivals e = true ↔ f.label key = e.label key := by
    rw [rivals_iff, Entry.label, Entry.label, Label.mk.injEq, and_iff_right rfl]
  induction es with
  | nil => simp [put]
  | cons f es ih =>
    by_cases hrivals : f.rivals e = true
    · simp [put, hrivals, hlabel.mp hrivals]
    · have hne : ¬e.label key = f.label key := fun heq => hrivals (hlabel.mpr heq.symm)
      simp only [put, hrivals, Bool.false_eq_true, if_false, List.map_cons, ih, List.mem_cons, hne,
        false_or, apply_ite (List.cons (f.label key)), List.cons_append]

theorem length_put (key : TokenId) (e : Entry) (es : List Entry) : (put e es).length =
    es.length + if e.label key ∈ es.map (Entry.label key) then 0 else 1 := by
  have hlength := congrArg List.length (map_label_put key e es)
  rw [List.length_map, apply_ite List.length, List.length_append, List.length_map] at hlength
  rw [hlength]
  split <;> rfl

namespace Represents

theorem mem_bound_iff (h : m.Represents b) {label : Label} :
    label ∈ b.bound ↔ label ∈ (m.bucket label.key).map (Entry.label label.key) := by
  rw [← get?_ne_none_iff, h.get]
  rfl

theorem encard_under (h : m.Represents b) (key : TokenId) :
    (b.under key).encard = (m.bucket key).length := by
  have hunder : b.under key = ((m.bucket key).map (Entry.label key)).toFinset := by
    ext label
    rw [Bindings.mem_under, h.mem_bound_iff, Finset.mem_coe, List.mem_toFinset]
    constructor
    · rintro ⟨hmem, rfl⟩
      exact hmem
    · intro hmem
      obtain ⟨e, -, rfl⟩ := List.mem_map.mp hmem
      exact ⟨hmem, rfl⟩
  rw [hunder, Set.encard_coe_eq_coe_finsetCard, List.toFinset_card_of_nodup (h.distinct key),
    List.length_map]

theorem empty : Memo.empty.Represents .empty where
  get label := get?_empty ..
  distinct key := by
    rw [bucket_empty]
    exact List.nodup_nil
  size := by
    have hbound : Bindings.empty.bound = ∅ :=
      Set.eq_empty_of_forall_notMem fun _ hlabel => hlabel rfl
    rw [hbound, Set.encard_empty]
    rfl

theorem insert (h : m.Represents b) (key : TokenId) (e : Entry) :
    (m.insert key e).Represents (b.apply (.insert key e)) where
  get label := by
    by_cases hlabel : label = e.label key
    · subst hlabel
      rw [Bindings.apply, Function.update_self]
      exact get?_insert
    · rw [Bindings.apply, Function.update_of_ne hlabel, ← h.get]
      refine get?_insert_of_ne fun ⟨hkey, hrule, hflags⟩ => hlabel ?_
      rw [Entry.label, hkey, hrule, hflags]
  distinct other := by
    rw [bucket_insert]
    split
    next heq =>
      subst heq
      rw [map_label_put]
      split
      · exact h.distinct key
      next hnew => exact List.concat_eq_append ▸ (h.distinct key).concat hnew
    next => exact h.distinct other
  size := by
    have hbound : e.label key ∈ b.bound ↔ e.label key ∈ (m.bucket key).map (Entry.label key) :=
      h.mem_bound_iff
    have hsize : (m.insert key e).size =
        m.size + ((put e (m.bucket key)).length - (m.bucket key).length) := rfl
    rw [hsize, length_put key, Nat.add_sub_cancel_left, Bindings.bound_insert]
    -- The count grows only where the label was not bound before.
    by_cases hold : e.label key ∈ b.bound
    · rw [if_pos (hbound.mp hold), Set.insert_eq_of_mem hold]
      exact h.size
    · rw [if_neg fun hmem => hold (hbound.mpr hmem), Set.encard_insert_of_notMem hold, h.size]
      rfl

theorem evict_le (h : m.Represents b) (key : TokenId) : (m.evict key).1 ≤ m.size := by
  have hle := Set.encard_le_encard (b.under_subset key)
  rw [h.encard_under, h.size, Nat.cast_le] at hle
  exact hle

theorem evict_add (h : m.Represents b) (key : TokenId) :
    (m.evict key).1 + (m.evict key).2.size = m.size := Nat.add_sub_cancel' (h.evict_le key)

theorem evict (h : m.Represents b) (key : TokenId) :
    (m.evict key).2.Represents (b.apply (.evict key)) where
  get label := by
    rw [get?, bucket_evict, Bindings.apply_evict]
    by_cases hkey : label.key = key
    · simp [hkey]
    · rw [if_neg (Ne.symm hkey), if_neg hkey, ← h.get, get?]
  distinct other := by
    rw [bucket_evict]
    split
    · exact List.nodup_nil
    · exact h.distinct other
  size := by
    have hsum := Set.encard_sdiff_add_encard_of_subset (b.under_subset key)
    rw [h.encard_under, h.size, ← h.evict_add key, Nat.add_comm, Nat.cast_add] at hsum
    rw [Bindings.bound_evict]
    exact ENat.add_left_injective_of_ne_top (ENat.natCast_ne_top _) hsum

theorem forget (h : m.Represents b) (tokens : List Token) :
    (m.forget tokens).2.Represents (b.apply (.forget tokens)) ∧
      (m.forget tokens).1 + (m.forget tokens).2.size = m.size := by
  induction tokens generalizing m b with
  | nil => exact ⟨h, Nat.zero_add _⟩
  | cons t ts ih =>
    obtain ⟨hrest, hsum⟩ := ih (h.evict t.id)
    rw [Bindings.apply_forget_cons]
    refine ⟨hrest, ?_⟩
    change (m.evict t.id).1 + ((m.evict t.id).2.forget ts).1 +
      ((m.evict t.id).2.forget ts).2.size = _
    rw [Nat.add_assoc, hsum, h.evict_add]

theorem apply (h : m.Represents b) (op : MemoOp) : (m.apply op).Represents (b.apply op) := by
  cases op with
  | insert key e => exact h.insert key e
  | evict key => exact h.evict key
  | forget tokens => exact (h.forget tokens).1
  | clear => exact empty

theorem run (h : m.Represents b) (ops : List MemoOp) :
    (ops.foldl Memo.apply m).Represents (ops.foldl Bindings.apply b) := by
  induction ops generalizing m b with
  | nil => exact h
  | cons op ops ih => exact ih (h.apply op)

theorem encard_dropped (h : m.Represents b) (h' : m'.Represents b') (hsub : b'.bound ⊆ b.bound)
    {n : Nat} (hn : n + m'.size = m.size) : (b.bound \ b'.bound).encard = n := by
  have hsum := Set.encard_sdiff_add_encard_of_subset hsub
  rw [h'.size, h.size, ← hn, Nat.cast_add] at hsum
  exact ENat.add_left_injective_of_ne_top (ENat.natCast_ne_top _) hsum

end Represents

/-- After any operations a memo is the map that these make, whose entry for a label is the one filed
there last and not dropped since. Its size is the number of bindings, and no bucket holds two
entries for one label. Evicting a token, or forgetting tokens, gives the number of bindings that are
gone, also if a token is listed twice; the count falls by that number and not below 0. -/
theorem represents_run (ops : List MemoOp) :
    let m := ops.foldl apply .empty
    let b := ops.foldl Bindings.apply .empty
    (∀ label, m.get? label.key label.rule label.flags = b label) ∧
      b.bound.encard = m.size ∧
      (∀ key, ((m.bucket key).map (Entry.label key)).Nodup) ∧
      (∀ key, (b.bound \ (b.apply (.evict key)).bound).encard = (m.evict key).1 ∧
        (m.evict key).1 + (m.evict key).2.size = m.size) ∧
      ∀ tokens, (b.bound \ (b.apply (.forget tokens)).bound).encard = (m.forget tokens).1 ∧
        (m.forget tokens).1 + (m.forget tokens).2.size = m.size := by
  intro m b
  have h : m.Represents b := Represents.empty.run ops
  refine ⟨h.get, h.size, h.distinct, fun key => ?_, fun tokens => ?_⟩
  · have hsub : (b.apply (.evict key)).bound ⊆ b.bound := by
      rw [Bindings.bound_evict]
      exact Set.sdiff_subset
    exact ⟨h.encard_dropped (h.evict key) hsub (h.evict_add key), h.evict_add key⟩
  · obtain ⟨hrest, hsum⟩ := h.forget tokens
    exact ⟨h.encard_dropped hrest (b.bound_forget_subset tokens) hsum, hsum⟩

end Memo

end Reparse
