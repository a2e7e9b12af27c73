import Reparse.Proofs.Parser.Bare
import Reparse.Proofs.Renumbering

/-!
# Twin runs

Two runs side by side, each at a place of its own. The left one is a bare run; the right one may use
a memo. As long as the tokens that the left one looks at are the tokens of the right one up to their
numbers, both do the same: they give the same nodes and reports, consume as many tokens and look
equally far. What a rule does therefore hangs on nothing but the tokens it looks at.
-/

namespace Reparse

open Reparse.Parser

/-- Two places in two token sequences, and how the numbers of the tokens of one become those of the
other. -/
structure Window where
  left : Array Token
  right : Array Token
  number : TokenId → TokenId
  i : Nat
  j : Nat

namespace Window

variable {w : Window} {r k x : Nat}

structure Agrees (w : Window) (r : Nat) : Prop where
  slot : ∀ {a b}, a + w.j = b + w.i → w.i ≤ a → a ≤ r → w.right[b]? = renumber w.number w.left[a]?
  last : w.left.size ≤ r → w.right.back? = renumber w.number w.left.back?

def shift (w : Window) (x : Nat) : Window := { w with i := w.i + x, j := w.j + x }

theorem shift_shift (w : Window) (x y : Nat) : (w.shift x).shift y = w.shift (x + y) := by
  simp only [Window.shift, Nat.add_assoc]

def same (tokens : Array Token) (i : Nat) : Window := ⟨tokens, tokens, id, i, i⟩

theorem Agrees.mono (h : w.Agrees r) (hk : k ≤ r) : w.Agrees k where
  slot hab ha hak := h.slot hab ha (Nat.le_trans hak hk)
  last hs := h.last (Nat.le_trans hs hk)

theorem Agrees.shift (h : w.Agrees r) : (w.shift x).Agrees r where
  slot {a b} hab ha har := by
    simp only [Window.shift] at hab ha
    exact h.slot (by omega) (by omega) har
  last := h.last

theorem back?_eq {tokens : Array Token} {n : Nat} {t : Token} (ht : tokens[n]? = some t)
    (hn : tokens[n + 1]? = none) : tokens.back? = some t := by
  have hlt : n < tokens.size := (Array.getElem?_eq_some_iff.mp ht).1
  have hle : tokens.size ≤ n + 1 := Array.getElem?_eq_none_iff.mp hn
  rw [Array.back?_eq_getElem?, show tokens.size - 1 = n by omega, ht]

theorem agrees_of_slots {A B : Array Token} {ρ : TokenId → TokenId} {i j n : Nat}
    (hi : i < A.size) (hslot : ∀ k ≤ n, B[j + k]? = renumber ρ A[i + k]?) :
    (Window.mk A B ρ i j).Agrees (i + n) where
  slot {a b} hab ha har := by
    simp only at hab ha har ⊢
    obtain ⟨k, rfl⟩ := Nat.exists_eq_add_of_le ha
    rw [show b = j + k by omega]
    exact hslot k (by omega)
  last hsize := by
    simp only at hsize ⊢
    obtain ⟨k, hk⟩ := Nat.exists_eq_add_of_lt hi
    have hend : i + k < A.size := by omega
    have hlast : A[i + k]? = some A[i + k] := Array.getElem?_eq_getElem hend
    have hnone : A[i + k + 1]? = none := Array.getElem?_eq_none (by omega)
    have hlast' := hslot k (by omega)
    have hnone' := hslot (k + 1) (by omega)
    rw [hlast, Renumber.renumber_some] at hlast'
    rw [← Nat.add_assoc, ← Nat.add_assoc, hnone, Renumber.renumber_none] at hnone'
    rw [back?_eq hlast hnone, back?_eq hlast' hnone', Renumber.renumber_some]

theorem agrees_same (tokens : Array Token) (i r : Nat) : (same tokens i).Agrees r where
  slot {a b} hab _ _ := by
    have heq : a = b := Nat.add_right_cancel hab
    simp [same, heq]
  last _ := by simp [same]

end Window

/-- How the states of two twin runs correspond. The runs started in the states `pre₁` and `pre₂`;
entries on file on the right are of the kind `E`. -/
structure Twins (w : Window) (next : TokenId) (E : TokenId → Entry → Prop)
    (pre₁ pre₂ s₁ s₂ : ParseState) : Prop where
  cursor : s₁.cursor + w.j = s₂.cursor + w.i
  reach : s₁.reach + w.j = s₂.reach + w.i
  comments : s₂.comments = renumber w.number s₁.comments
  reports : ∃ new, s₁.reports = pre₁.reports ++ new ∧
    s₂.reports = pre₂.reports ++ renumber w.number new
  left_read : s₁.read = w.left.size
  left_cursor : s₁.cursor ≤ w.left.size
  left_reach : s₁.cursor ≤ s₁.reach + 1
  left_memo : s₁.memo.Keeps fun _ e => e.watermark = 0
  right_cursor : s₂.cursor ≤ s₂.read
  right_read : s₂.read ≤ w.right.size
  right_since : pre₂.read ≤ s₂.read
  right_seen : s₂.reach < s₂.read ∨ s₂.reach = w.right.size ∧ s₂.read = w.right.size
  right_fresh : Ascending w.right s₂.read
  right_next : s₂.read = w.right.size ∨ ∀ t ∈ w.right, t.id < next
  right_memo : s₂.memo.Keeps E

/-- Twin runs come to the same result, and the left one is at a place that is fit for it. -/
structure Matches {β : Type} [Renumber β] (w : Window) (next : TokenId)
    (E : TokenId → Entry → Prop) (pre₁ pre₂ : ParseState) (Q : β → Nat → Prop)
    (r₁ r₂ : β × ParseState) : Prop where
  value : r₂.1 = renumber w.number r₁.1
  twins : Twins w next E pre₁ pre₂ r₁.2 r₂.2
  place : Q r₁.1 r₁.2.cursor

def Onward {β : Type} (p : Parser β) : Prop :=
  ∀ c s, s.cursor ≤ (p.eval c s).2.cursor ∧ s.reach ≤ (p.eval c s).2.reach

structure Alike {β : Type} [Renumber β] (w : Window) (P : Nat → Prop) (p₁ p₂ : Parser β)
    (Q : β → Nat → Prop) : Prop where
  onward : Onward p₁
  twin : ∀ {next E pre₁ pre₂ s₁ s₂} flags, Trusted E w.right next →
    Twins w next E pre₁ pre₂ s₁ s₂ → w.i ≤ s₁.cursor → P s₁.cursor →
    w.Agrees (p₁.eval (.bare w.left flags) s₁).2.reach →
    Matches w next E pre₁ pre₂ Q (p₁.eval (.bare w.left flags) s₁)
      (p₂.eval ⟨w.right, next, flags⟩ s₂)

variable {w : Window} {next : TokenId} {E : TokenId → Entry → Prop}
  {pre₁ pre₂ s₁ s₂ : ParseState} {m n : Nat}

def From (w : Window) (m : Nat) (c : Nat) : Prop := w.i + m ≤ c

theorem From.mono {c : Nat} (h : From w n c) (hmn : m ≤ n) : From w m c :=
  Nat.le_trans (Nat.add_le_add_left hmn w.i) h

def Ready (w : Window) (m : Nat) (c : Nat) : Prop :=
  w.i + m ≤ c ∧ ∃ t, w.left[nextReal w.left c]? = some t

abbrev AlikeStep {β : Type} [Renumber β] (w : Window) (m : Nat) (p₁ p₂ : Parser β) : Prop :=
  Alike w (From w m) p₁ p₂ fun _ => From w m

abbrev AlikeRule {β : Type} [Renumber β] (w : Window) (m : Nat) (p₁ p₂ : Parser (Option β)) :
    Prop :=
  Alike w (From w m) p₁ p₂ fun o => From w (m + o.isSome.toNat)

theorem Twins.start {A B : Array Token} (ρ : TokenId → TokenId) {i j read : Nat} {memo : Memo}
    (hi : i ≤ A.size) (hread : read ≤ B.size) (hseen : j < read ∨ j = B.size ∧ read = B.size)
    (hfresh : Ascending B read) (hnext : read = B.size ∨ ∀ t ∈ B, t.id < next)
    (hmemo : memo.Keeps E) :
    Twins ⟨A, B, ρ, i, j⟩ next E (.bare A i) ⟨j, j, read, [], #[], memo, {}⟩ (.bare A i)
      ⟨j, j, read, [], #[], memo, {}⟩ where
  cursor := Nat.add_comm i j
  reach := Nat.add_comm i j
  comments := rfl
  reports := ⟨#[], rfl, by rw [Renumber.renumber_empty]; rfl⟩
  left_read := rfl
  left_cursor := hi
  left_reach := Nat.le_succ i
  left_memo := .empty
  right_cursor := hseen.elim Nat.le_of_lt fun h => Nat.le_of_eq (h.1.trans h.2.symm)
  right_read := hread
  right_since := Nat.le_refl _
  right_seen := hseen
  right_fresh := hfresh
  right_next := hnext
  right_memo := hmemo

theorem Twins.bare {A B : Array Token} (ρ : TokenId → TokenId) {i j : Nat} (hi : i ≤ A.size)
    (hj : j ≤ B.size) : Twins ⟨A, B, ρ, i, j⟩ 0 (fun _ e => e.watermark = 0) (.bare A i)
      (.bare B j) (.bare A i) (.bare B j) :=
  .start ρ hi (Nat.le_refl _) ((Nat.lt_or_eq_of_le hj).imp_right fun h => ⟨h, rfl⟩)
    (ascending_size B) (.inl rfl) .empty

namespace Onward

variable {β γ : Type} {p : Parser β} {q : β → Parser γ}

theorem pure (b : β) : Onward (Pure.pure b : Parser β) := fun _ _ => ⟨Nat.le_refl _, Nat.le_refl _⟩

theorem bind (hp : Onward p) (hq : ∀ b, Onward (q b)) : Onward (p >>= q) := by
  intro c s
  have h₁ := hp c s
  have h₂ := hq (p.eval c s).1 c (p.eval c s).2
  exact ⟨Nat.le_trans h₁.1 h₂.1, Nat.le_trans h₁.2 h₂.2⟩

theorem map {f : β → γ} (hp : Onward p) : Onward (f <$> p) := fun c s => hp c s

end Onward

namespace Alike

variable {β γ : Type} [Renumber β] [Renumber γ] {p₁ p₂ : Parser β} {q₁ q₂ : β → Parser γ}
  {P P' : Nat → Prop} {Q Q' : β → Nat → Prop} {R : γ → Nat → Prop}

theorem pure {b₁ b₂ : β} (hb : b₂ = renumber w.number b₁) (hQ : ∀ c, P c → Q b₁ c) :
    Alike w P (Pure.pure b₁) (Pure.pure b₂) Q where
  onward := .pure b₁
  twin _ _ ht _ hP _ := ⟨hb, ht, hQ _ hP⟩

theorem bind (hp : Alike w P p₁ p₂ Q)
    (hq : ∀ b, Alike w (Q b) (q₁ b) (q₂ (renumber w.number b)) R) :
    Alike w P (p₁ >>= q₁) (p₂ >>= q₂) R where
  onward := hp.onward.bind fun b => (hq b).onward
  twin := by
    intro next E pre₁ pre₂ s₁ s₂ flags hE ht hi hP ha
    simp only [eval_bind] at ha ⊢
    have hq' := hq (p₁.eval (.bare w.left flags) s₁).1
    have hle := hq'.onward (.bare w.left flags) (p₁.eval (.bare w.left flags) s₁).2
    have hr := hp.twin flags hE ht hi hP (ha.mono hle.2)
    have hon := (hp.onward (.bare w.left flags) s₁).1
    rw [hr.value]
    exact hq'.twin flags hE hr.twins (Nat.le_trans hi hon) hr.place ha

theorem map {f₁ f₂ : β → γ} (hp : Alike w P p₁ p₂ Q)
    (hf : ∀ b, f₂ (renumber w.number b) = renumber w.number (f₁ b))
    (hR : ∀ b c, Q b c → R (f₁ b) c) : Alike w P (f₁ <$> p₁) (f₂ <$> p₂) R where
  onward := hp.onward.map
  twin := by
    intro next E pre₁ pre₂ s₁ s₂ flags hE ht hi hP ha
    have hr := hp.twin flags hE ht hi hP ha
    refine ⟨?_, hr.twins, hR _ _ hr.place⟩
    simp only [eval_map]
    rw [hr.value, hf]

theorem weaken (hp : Alike w P p₁ p₂ Q) (hP : ∀ c, P' c → P c) (hQ : ∀ b c, Q b c → Q' b c) :
    Alike w P' p₁ p₂ Q' where
  onward := hp.onward
  twin := by
    intro next E pre₁ pre₂ s₁ s₂ flags hE ht hi hP' ha
    have hr := hp.twin flags hE ht hi (hP _ hP') ha
    exact ⟨hr.value, hr.twins, hQ _ _ hr.place⟩

theorem congr {p₁' p₂' : Parser β} (h : Alike w P p₁' p₂' Q) (honward : Onward p₁)
    (h₁ : ∀ flags s, p₁.eval (.bare w.left flags) s = p₁'.eval (.bare w.left flags) s)
    (h₂ : ∀ next flags s, p₂.eval ⟨w.right, next, flags⟩ s = p₂'.eval ⟨w.right, next, flags⟩ s) :
    Alike w P p₁ p₂ Q where
  onward := honward
  twin flags hE ht hi hP ha := by
    rw [h₁] at ha ⊢
    rw [h₂]
    exact h.twin flags hE ht hi hP ha

theorem step {p₁ p₂ : Parser (Option β)} (h : AlikeRule w m p₁ p₂) : AlikeStep w m p₁ p₂ :=
  h.weaken (fun _ hc => hc) fun _ _ hc => hc.mono (Nat.le_add_right ..)

theorem of_past (h : Onward p₁) (hpast : w.left.size < w.i + m ∨ w.right.size < w.j + m) :
    Alike w (From w m) p₁ p₂ Q where
  onward := h
  twin _ _ ht _ hP _ := by
    have h₁ := ht.cursor
    have h₂ := ht.left_cursor
    have h₃ := ht.right_cursor
    have h₄ := ht.right_read
    simp only [From] at hP
    omega

end Alike

end Reparse
