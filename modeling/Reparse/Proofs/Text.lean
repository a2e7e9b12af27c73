import Reparse.Text

/-!
# Offsets into texts

An offset on a boundary is the size of a beginning of the text, and what is cut off there is that
beginning. Two beginnings of one text that have the same size are the same.
-/

namespace Reparse

namespace Text

theorem size_eq_zero {t : Text} (h : size t = 0) : t = [] := by
  cases t with
  | nil => rfl
  | cons c cs =>
    have hpos := Char.utf8Size_pos c
    rw [size_cons] at h
    omega

theorem length_le_size (t : Text) : t.length ≤ size t := by
  induction t with
  | nil => exact Nat.le_refl 0
  | cons c cs ih =>
    have hpos := Char.utf8Size_pos c
    rw [List.length_cons, size_cons]
    omega

theorem takeBytes_succ_cons (n : Nat) (c : Char) (cs : Text) :
    takeBytes (n + 1) (c :: cs) = c :: takeBytes (n + 1 - c.utf8Size) cs := rfl

theorem takeBytes_size_append (a b : Text) : takeBytes (size a) (a ++ b) = a := by
  induction a with
  | nil => cases b <;> rfl
  | cons c cs ih =>
    have hpos := Char.utf8Size_pos c
    obtain ⟨n, hn⟩ : ∃ n, size (c :: cs) = n + 1 := ⟨size (c :: cs) - 1, by rw [size_cons]; omega⟩
    have hrest : n + 1 - c.utf8Size = size cs := by
      rw [size_cons] at hn
      omega
    rw [hn, List.cons_append, takeBytes_succ_cons, hrest, ih]

theorem dropBytes_size_append (a b : Text) : dropBytes (size a) (a ++ b) = b := by
  have h := takeBytes_append_dropBytes (size a) (a ++ b)
  rw [takeBytes_size_append] at h
  exact List.append_cancel_left h

theorem onBoundary_size_append (a b : Text) : onBoundary (size a) (a ++ b) = true :=
  decide_eq_true (congrArg size (takeBytes_size_append a b))

theorem exists_append_of_onBoundary {n : Nat} {t : Text} (h : onBoundary n t = true) :
    ∃ a b, t = a ++ b ∧ size a = n :=
  ⟨takeBytes n t, dropBytes n t, (takeBytes_append_dropBytes n t).symm, of_decide_eq_true h⟩

theorem splice_append (a b c x : Text) :
    splice (size a) (size (a ++ b)) x (a ++ b ++ c) = a ++ x ++ c := by
  have hdrop := dropBytes_size_append (a ++ b) c
  have htake := takeBytes_size_append a (b ++ c)
  rw [← List.append_assoc] at htake
  rw [splice, htake, hdrop]

theorem slice_append (a b c : Text) : slice (size a) (size (a ++ b)) (a ++ b ++ c) = b := by
  have hdrop := dropBytes_size_append a (b ++ c)
  rw [← List.append_assoc] at hdrop
  have hsize : size (a ++ b) - size a = size b := by rw [size_append, Nat.add_sub_cancel_left]
  rw [slice, hdrop, hsize, takeBytes_size_append]

theorem exists_between {a b c d : Text} (h : a ++ b = c ++ d) (hsize : size a ≤ size c) :
    ∃ m, c = a ++ m ∧ b = m ++ d := by
  rcases List.append_eq_append_iff.mp h with ⟨m, hc, hb⟩ | ⟨m, ha, hd⟩
  · exact ⟨m, hc, hb⟩
  · have hm : m = [] := by
      refine size_eq_zero ?_
      rw [ha, size_append] at hsize
      omega
    subst hm
    rw [List.append_nil] at ha
    exact ⟨[], by rw [ha, List.append_nil], hd.symm⟩

theorem append_inj_size {a b c d : Text} (h : a ++ b = c ++ d) (hsize : size a = size c) :
    a = c ∧ b = d := by
  obtain ⟨m, hc, hb⟩ := exists_between h (Nat.le_of_eq hsize)
  have hm : m = [] := by
    refine size_eq_zero ?_
    rw [hc, size_append] at hsize
    omega
  subst hm
  exact ⟨by rw [hc, List.append_nil], hb⟩

end Text

end Reparse
