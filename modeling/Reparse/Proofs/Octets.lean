import Reparse.Proofs.Text

/-!
# Bytes of texts

The UTF-8 bytes of a text. An ASCII character is one byte, which no part of another character can be
taken for: all bytes of the others are 128 at least.
-/

namespace Reparse

namespace Text

def ofByte (b : UInt8) : Char := Char.ofNat b.toNat

/-- The UTF-8 bytes of a text, each as the character of its number. -/
def octets (t : Text) : List Char := t.flatMap fun c => (String.utf8EncodeChar c).map ofByte

@[simp] theorem octets_nil : octets [] = [] := rfl

theorem octets_cons (c : Char) (cs : Text) :
    octets (c :: cs) = (String.utf8EncodeChar c).map ofByte ++ octets cs := rfl

@[simp] theorem octets_append (a b : Text) : octets (a ++ b) = octets a ++ octets b :=
  List.flatMap_append

@[simp] theorem length_octets (t : Text) : (octets t).length = size t := by
  induction t with
  | nil => rfl
  | cons c cs ih =>
    rw [octets_cons, List.length_append, List.length_map, String.length_utf8EncodeChar, ih]
    rfl

theorem toNat_ofByte (b : UInt8) : (ofByte b).toNat = b.toNat := by
  have hlt : b.toNat < 256 := b.toNat_lt_size
  have hvalid : b.toNat.isValidChar := .inl (by omega)
  rw [ofByte, Char.ofNat, dif_pos hvalid]
  rfl

theorem toNat_val (c : Char) : c.val.toNat = c.toNat := rfl

variable {c : Char} {cs : Text}

theorem utf8Size_ascii (h : c.toNat < 128) : c.utf8Size = 1 := by
  rw [Char.utf8Size_eq_one_iff, UInt32.le_iff_toNat_le]
  exact Nat.le_of_lt_succ h

theorem octets_ascii (h : c.toNat < 128) (cs : Text) : octets (c :: cs) = c :: octets cs := by
  have hbyte : ofByte (UInt8.ofNat c.toNat) = c := by
    rw [ofByte, UInt8.toNat_ofNat_of_lt' (by simp [UInt8.size]; omega), Char.ofNat_toNat]
  have hle : c.val.toNat ≤ 127 := Nat.le_of_lt_succ h
  rw [octets_cons, String.utf8EncodeChar.eq_1, if_pos hle, List.map_singleton, toNat_val, hbyte]
  rfl

theorem le_of_mem_utf8EncodeChar (h : 128 ≤ c.toNat) {b : UInt8}
    (hb : b ∈ String.utf8EncodeChar c) : 128 ≤ b.toNat := by
  rw [String.utf8EncodeChar.eq_1, toNat_val, if_neg (by omega)] at hb
  have hcontinues : ∀ n, 128 ≤ (UInt8.ofNat (n % 64 + 128)).toNat := fun n => by
    rw [UInt8.toNat_ofNat']
    omega
  split at hb
  · simp only [List.mem_cons, List.not_mem_nil, or_false] at hb
    rcases hb with rfl | rfl
    · rw [UInt8.toNat_ofNat']
      omega
    · exact hcontinues _
  · split at hb
    · simp only [List.mem_cons, List.not_mem_nil, or_false] at hb
      rcases hb with rfl | rfl | rfl
      · rw [UInt8.toNat_ofNat']
        omega
      · exact hcontinues _
      · exact hcontinues _
    · simp only [List.mem_cons, List.not_mem_nil, or_false] at hb
      rcases hb with rfl | rfl | rfl | rfl
      · rw [UInt8.toNat_ofNat']
        omega
      · exact hcontinues _
      · exact hcontinues _
      · exact hcontinues _

theorem octets_foreign (h : 128 ≤ c.toNat) (cs : Text) :
    ∃ d ds, octets (c :: cs) = d :: ds ++ octets cs ∧ (d :: ds).length = c.utf8Size ∧
      ∀ e ∈ d :: ds, 128 ≤ e.toNat := by
  have hne : (String.utf8EncodeChar c).map ofByte ≠ [] := fun hnil =>
    String.utf8EncodeChar_ne_nil (List.map_eq_nil_iff.mp hnil)
  obtain ⟨d, ds, hds⟩ := List.exists_cons_of_ne_nil hne
  refine ⟨d, ds, by rw [octets_cons, hds], ?_, fun e he => ?_⟩
  · rw [← hds, List.length_map, String.length_utf8EncodeChar]
  · rw [← hds] at he
    obtain ⟨b, hb, rfl⟩ := List.mem_map.mp he
    rw [toNat_ofByte]
    exact le_of_mem_utf8EncodeChar h hb

theorem count_octets (h : c.toNat < 128) (t : Text) : (octets t).count c = t.count c := by
  induction t with
  | nil => rfl
  | cons d ds ih =>
    by_cases hd : d.toNat < 128
    · rw [octets_ascii hd, List.count_cons, List.count_cons, ih]
    · obtain ⟨e, es, hes, -, hlarge⟩ := octets_foreign (Nat.le_of_not_lt hd) ds
      have hnone : (e :: es).count c = 0 :=
        List.count_eq_zero.mpr fun hc => Nat.not_lt.mpr (hlarge c hc) h
      have hne : d ≠ c := fun heq => hd (heq ▸ h)
      rw [hes, List.count_append, hnone, ih, List.count_cons_of_ne hne, Nat.zero_add]

section

variable {p : Char → Bool} (hascii : ∀ c, p c = true → c.toNat < 128)

include hascii

theorem findIdx?_octets_cons (hc : p c = false) (cs : Text) :
    (octets (c :: cs)).findIdx? p = ((octets cs).findIdx? p).map (· + c.utf8Size) := by
  by_cases hsmall : c.toNat < 128
  · rw [octets_ascii hsmall, utf8Size_ascii hsmall, List.findIdx?_cons, hc]
    rfl
  · obtain ⟨d, ds, hds, hlength, hlarge⟩ := octets_foreign (Nat.le_of_not_lt hsmall) cs
    have hnone : (d :: ds).findIdx? p = none := by
      apply List.findIdx?_eq_none_iff.mpr
      intro e he
      apply Bool.eq_false_iff.mpr
      intro hp
      have hless := hascii e hp
      have hleast := hlarge e he
      omega
    rw [hds, List.findIdx?_append, hnone, hlength]
    rfl

theorem findIdx?_octets_hit (hc : p c = true) (cs : Text) :
    (octets (c :: cs)).findIdx? p = some 0 := by
  rw [octets_ascii (hascii c hc), List.findIdx?_cons, hc]
  rfl

theorem findIdx?_octets (t : Text) :
    ((octets t).findIdx? p).getD (octets t).length = size (t.takeWhile fun c => !p c) := by
  induction t with
  | nil => rfl
  | cons c cs ih =>
    cases hc : p c with
    | true =>
      rw [findIdx?_octets_hit hascii hc, List.takeWhile_cons_of_neg (by simp [hc])]
      rfl
    | false =>
      rw [findIdx?_octets_cons hascii hc, List.takeWhile_cons_of_pos (by simp [hc]), size_cons,
        ← ih]
      rw [length_octets, length_octets, size_cons]
      cases (octets cs).findIdx? p with
      | none => rfl
      | some n => exact Nat.add_comm n c.utf8Size

end

end Text

end Reparse
