import GoAoa.Lib.FixedWidth
import Mathlib.Data.Nat.Digits.Lemmas

/-!
# Lists of byte strings in RLP

`rlp/encode.go` for a flat list. A byte below 128 stands for itself, every other string comes with
its size, and so does the list. As long as the sizes have 64 bits a list can be told from what is
encoded of it (`encodeList_inj`).
-/

namespace GoAoa

open List UInt8

namespace FixedWidth

theorem decode_digits (n : Nat) : decode ((Nat.digits 256 n).map ofNat) = n := by
  induction n using Nat.strong_induction_on with
  | _ n ih =>
    rcases Nat.eq_zero_or_pos n with rfl | hn
    · rfl
    · rw [Nat.digits_def' (by decide) hn, map_cons, decode, ih _ (by omega), UInt8.toNat_ofNat']
      omega

/-- The digits of a number that is read from `l` are those of `l`, up to zeros at the end. -/
theorem digits_decode (l : List UInt8) : (Nat.digits 256 (decode l)).map ofNat ++
      List.replicate (l.length - (Nat.digits 256 (decode l)).length) 0 = l := by
  induction l with
  | nil => rfl
  | cons b l ih =>
    have hb := b.toNat_lt
    rw [decode]
    rcases Nat.eq_zero_or_pos (b.toNat + 256 * decode l) with h | h
    · have hb0 : b = 0 := UInt8.toNat_inj.1 (by simp; omega)
      have hl : decode l = 0 := by omega
      rw [hl] at ih
      simp only [Nat.digits_zero, map_nil, nil_append, length_nil, Nat.sub_zero] at ih
      simp [hb0, hl, replicate_succ, ih]
    · rw [Nat.digits_def' (by decide) h, show (b.toNat + 256 * decode l) / 256 = decode l by omega,
        map_cons, cons_append, length_cons, length_cons, Nat.add_sub_add_right,
        ih]
      congr 1
      exact UInt8.toNat_inj.1 (by simp)

end FixedWidth

namespace Rlp

/-- Big-endian, without leading zeros. -/
def putint (n : Nat) : List UInt8 := ((Nat.digits 256 n).map ofNat).reverse

/-- The tag tells a short size, or the number of bytes of a long one. -/
def puthead (smalltag largetag size : Nat) : List UInt8 :=
  if size < 56 then [ofNat (smalltag + size)]
  else ofNat (largetag + (putint size).length) :: putint size

def encodeString (s : List UInt8) : List UInt8 :=
  if s.length = 1 ∧ s.headD 0 ≤ 0x7f then s else puthead 0x80 0xb7 s.length ++ s

def encodeList (l : List (List UInt8)) : List UInt8 :=
  puthead 0xc0 0xf7 (l.flatMap encodeString).length ++ l.flatMap encodeString

variable {n m k : Nat} {a b x y : List UInt8} {l l' : List (List UInt8)}

theorem decode_putint (n : Nat) : FixedWidth.decode (putint n).reverse = n := by
  rw [putint, reverse_reverse, FixedWidth.decode_digits]

theorem putint_inj (h : putint n = putint m) : n = m := by
  rw [← decode_putint n, h, decode_putint]

theorem length_putint (hn : 56 ≤ n) (hlt : n < 2 ^ 64) :
    1 ≤ (putint n).length ∧ (putint n).length ≤ 8 := by
  simp only [putint, length_reverse, length_map]
  have hpos : Nat.digits 256 n ≠ [] := Nat.digits_ne_nil_iff_ne_zero.2 (by omega)
  exact ⟨length_pos_iff.2 hpos, (Nat.digits_length_le_iff (by decide) n).2 (by omega)⟩

/-- The first byte of a head is no less than the tag. -/
theorem puthead_eq_cons (htag : k + 63 < 256) (hlt : n < 2 ^ 64) :
    ∃ h t, puthead k (k + 55) n = h :: t ∧ k ≤ h.toNat := by
  unfold puthead
  split
  · refine ⟨_, _, rfl, ?_⟩
    simp only [UInt8.toNat_ofNat']
    omega
  · have := length_putint (by omega) hlt
    refine ⟨_, _, rfl, ?_⟩
    simp only [UInt8.toNat_ofNat']
    omega

theorem puthead_inj (_ : k + 63 < 256) (hn : n < 2 ^ 64) (hm : m < 2 ^ 64)
    (h : puthead k (k + 55) n ++ x = puthead k (k + 55) m ++ y) : n = m ∧ x = y := by
  have hlen := fun h => length_putint h hn
  have hlen' := fun h => length_putint h hm
  unfold puthead at h
  split at h <;> split at h <;>
    simp only [cons_append, nil_append, cons.injEq, ← UInt8.toNat_inj, UInt8.toNat_ofNat'] at h
  · exact ⟨by omega, h.2⟩
  · have := hlen' (by omega)
    omega
  · have := hlen (by omega)
    omega
  · have := hlen (by omega)
    obtain ⟨hsize, hrest⟩ := append_inj h.2 (by omega)
    exact ⟨putint_inj hsize, hrest⟩

theorem encodeString_inj (ha : a.length < 2 ^ 64) (hb : b.length < 2 ^ 64)
    (h : encodeString a ++ x = encodeString b ++ y) : a = b ∧ x = y := by
  -- a string that stands for itself has no head before it
  have hself : ∀ {s r : List UInt8} {n : Nat} {z : List UInt8}, s.length = 1 ∧ s.headD 0 ≤ 0x7f →
      n < 2 ^ 64 → s ++ r ≠ puthead 0x80 0xb7 n ++ z := by
    intro s r n z hs hn heq
    obtain ⟨head, t, hhead, htag⟩ := puthead_eq_cons (k := 0x80) (by decide) hn
    obtain ⟨c, rfl⟩ := length_eq_one_iff.1 hs.1
    rw [show 0xb7 = 0x80 + 55 from rfl, hhead] at heq
    obtain rfl := (cons.inj heq).1
    have hc : c.toNat ≤ 0x7f := le_iff_toNat_le.1 hs.2
    omega
  unfold encodeString at h
  split at h <;> split at h
  · rename_i h1 h2
    exact append_inj h (by omega)
  · rename_i h1 _
    rw [append_assoc] at h
    exact absurd h (hself h1 hb)
  · rename_i _ h2
    rw [append_assoc] at h
    exact absurd h.symm (hself h2 ha)
  · rw [append_assoc, append_assoc] at h
    obtain ⟨hsize, hrest⟩ := puthead_inj (by decide) ha hb h
    exact append_inj hrest hsize

theorem encodeString_ne_nil (s : List UInt8) : encodeString s ≠ [] := by
  unfold encodeString puthead
  split
  · rintro rfl
    simp_all
  · split <;> simp

theorem length_le_encodeString (s : List UInt8) : s.length ≤ (encodeString s).length := by
  unfold encodeString
  split
  · exact Nat.le_refl _
  · simp

/-- **A list can be told from its encoding.** -/
theorem encodeList_inj (hl : (l.flatMap encodeString).length < 2 ^ 64)
    (hl' : (l'.flatMap encodeString).length < 2 ^ 64) (h : encodeList l = encodeList l') :
    l = l' := by
  obtain ⟨-, hflat⟩ := puthead_inj (by decide) hl hl' h
  clear h
  induction l generalizing l' with
  | nil =>
    cases l' with
    | nil => rfl
    | cons b => exact absurd (append_eq_nil_iff.1 hflat.symm).1 (encodeString_ne_nil b)
  | cons a l ih =>
    cases l' with
    | nil => exact absurd (append_eq_nil_iff.1 hflat).1 (encodeString_ne_nil a)
    | cons b =>
      simp only [flatMap_cons, length_append] at hl hl' hflat
      have := length_le_encodeString a
      have := length_le_encodeString b
      obtain ⟨rfl, hrest⟩ := encodeString_inj (by omega) (by omega) hflat
      rw [ih (by omega) (by omega) hrest]

end Rlp

end GoAoa
