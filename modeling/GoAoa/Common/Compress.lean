import GoAoa.Types
import Mathlib.Data.List.Basic

/-!
# Bitset compression

`common/bitutil/compress.go`. Data is stored as its bytes that are not zero, after the set of their
places; that set is bytes again and is compressed in the same way. `distribute` is the loop that
puts the bytes back.

What is decoded is encoded to the input that was read (`decodes_sound`), and what is encoded is
decoded whatever follows it (`decodes_encoded`), where data that is all zero has to be at the end.
-/

namespace GoAoa.Common

open List

inductive DecodeErr
  | missingData
  | unreferencedData
  | exceededTarget
  | zeroContent
  deriving DecidableEq, Repr

/-! ## Sets of places -/

def bitsOf (b : UInt8) : List Bool := (range 8).map fun j => b &&& (1 : UInt8) <<< (7 - j).toUInt8 ≠ 0

/-- The byte of the set for eight places, of which `f` says whether they are in it. -/
def packByte (f : Nat → Bool) : UInt8 :=
  (range 8).foldl (fun byte j => if f j then byte ||| 1 <<< (7 - j).toUInt8 else byte) 0

def nonZeroBitset (data : Bytes) : Bytes :=
  (range ((data.length + 7) / 8)).map fun i => packByte fun j => data.getD (8 * i + j) 0 ≠ 0

def nonZeroBytes (data : Bytes) : Bytes := data.filter (· ≠ 0)

/-! ## Compression -/

def bitsetEncodeBytes : Bytes → Bytes
  | [] => []
  | [b] => if b = 0 then [] else [b]
  | a :: b :: rest =>
    if nonZeroBytes (a :: b :: rest) = [] then []
    else bitsetEncodeBytes (nonZeroBitset (a :: b :: rest)) ++ nonZeroBytes (a :: b :: rest)
termination_by data => data.length
decreasing_by
  simp only [nonZeroBitset, length_map, length_range, length_cons]
  omega

def compressBytes (data : Bytes) : Bytes :=
  if (bitsetEncodeBytes data).length < data.length then bitsetEncodeBytes data else data

/-- The loop over the bits of the set: `slots` places of the result are still to come, and `data`
is what has not been read. Answers the places and the number of bytes read. -/
def distribute : List Bool → Nat → Bytes → Except DecodeErr (Bytes × Nat)
  | [], slots, _ => .ok (replicate slots 0, 0)
  | false :: bits, 0, data => distribute bits 0 data
  | false :: bits, slots + 1, data => (distribute bits slots data).map fun r => (0 :: r.1, r.2)
  | true :: _, _, [] => .error .missingData
  | true :: _, 0, _ :: _ => .error .exceededTarget
  | true :: bits, slots + 1, b :: data =>
    if b = 0 then .error .zeroContent
    else (distribute bits slots data).map fun r => (b :: r.1, r.2 + 1)

def bitsetDecodePartialBytes (data : Bytes) : Nat → Except DecodeErr (Bytes × Nat)
  | 0 => .ok ([], 0)
  | target + 1 =>
    match data with
    | [] => .ok (replicate (target + 1) 0, 0)
    | b :: _ =>
      if target = 0 then .ok ([b], if b = 0 then 0 else 1)
      else
        match bitsetDecodePartialBytes data ((target + 1 + 7) / 8) with
        | .error e => .error e
        | .ok (nonZeroBitset, ptr) =>
          (distribute (nonZeroBitset.flatMap bitsOf) (target + 1) (data.drop ptr)).map
            fun r => (r.1, ptr + r.2)
termination_by target => target

def bitsetDecodeBytes (data : Bytes) (target : Nat) : Except DecodeErr Bytes :=
  match bitsetDecodePartialBytes data target with
  | .error e => .error e
  | .ok (out, size) => if size = data.length then .ok out else .error .unreferencedData

def decompressBytes (data : Bytes) (target : Nat) : Except DecodeErr Bytes :=
  if target < data.length then .error .exceededTarget
  else if data.length = target then .ok data
  else bitsetDecodeBytes data target

variable {data out : Bytes}

/-! ## The bits of a set -/

theorem bitsOf_packByte (f : Nat → Bool) : bitsOf (packByte f) = (range 8).map f := by
  have h : ∀ b0 b1 b2 b3 b4 b5 b6 b7 : Bool,
      bitsOf (packByte fun j => [b0, b1, b2, b3, b4, b5, b6, b7].getD j false) =
        [b0, b1, b2, b3, b4, b5, b6, b7] := by decide +kernel
  exact h (f 0) (f 1) (f 2) (f 3) (f 4) (f 5) (f 6) (f 7)

theorem bitsOf_inj {b c : UInt8} (h : bitsOf b = bitsOf c) : b = c := by
  have hpack : ∀ v : BitVec 8, packByte (fun j => (bitsOf ⟨v⟩).getD j false) = ⟨v⟩ := by
    decide +kernel
  rw [← UInt8.ofBitVec_toBitVec b, ← UInt8.ofBitVec_toBitVec c] at *
  rw [← hpack b.toBitVec, ← hpack c.toBitVec, h]

theorem flatMap_bitsOf_inj {set set' : Bytes} (hlen : set.length = set'.length)
    (h : set.flatMap bitsOf = set'.flatMap bitsOf) : set = set' := by
  refine map_injective_iff.2 (fun _ _ => bitsOf_inj) (eq_iff_flatten_eq.2 ⟨h, ?_⟩)
  simp [bitsOf, Function.comp_def, map_const', hlen]

theorem length_nonZeroBitset (data : Bytes) :
    (nonZeroBitset data).length = (data.length + 7) / 8 := by
  rw [nonZeroBitset, length_map, length_range]

/-- Which of the first `n` places have a byte that is not zero. -/
def places (out : Bytes) (n : Nat) : List Bool := (range n).map fun i => out.getD i 0 ≠ 0

theorem bits_nonZeroBitset (out : Bytes) :
    (nonZeroBitset out).flatMap bitsOf = places out (8 * ((out.length + 7) / 8)) := by
  unfold nonZeroBitset places
  induction (out.length + 7) / 8 with
  | zero => rfl
  | succ m ih =>
    rw [range_succ, map_append, flatMap_append, ih, Nat.mul_succ, range_add, map_append, map_map]
    congr 1
    rw [map_singleton, flatMap_singleton, bitsOf_packByte]
    rfl

/-! ## Putting the bytes back -/

theorem places_succ (out : Bytes) (n : Nat) :
    places out (n + 1) = (out.headD 0 ≠ 0 : Bool) :: places out.tail n := by
  unfold places
  rw [range_succ_eq_map, map_cons, map_map]
  cases out <;> rfl

theorem nonZeroBytes_eq_nil : nonZeroBytes data = [] ↔ ∀ b ∈ data, b = 0 := by simp [nonZeroBytes]

theorem nonZeroBytes_cons {b : UInt8} (hb : b ≠ 0) :
    nonZeroBytes (b :: out) = b :: nonZeroBytes out :=
  filter_cons_of_pos (by simpa using hb)

theorem ok_of_map {α β : Type} {e : Except DecodeErr α} {f : α → β} {b : β}
    (h : e.map f = .ok b) : ∃ a, e = .ok a ∧ f a = b := by
  cases e with
  | error e => cases h
  | ok a => exact ⟨a, rfl, Except.ok.inj h⟩

theorem distribute_sound {bits : List Bool} {slots n : Nat}
    (h : distribute bits slots data = .ok (out, n)) (hslots : slots ≤ bits.length) :
    out.length = slots ∧ bits = places out bits.length ∧ data.take n = nonZeroBytes out ∧
      n = (nonZeroBytes out).length := by
  induction bits generalizing slots data out n with
  | nil =>
    cases Nat.le_zero.1 hslots
    cases h
    exact ⟨rfl, rfl, rfl, rfl⟩
  | cons bit bits ih =>
    rw [length_cons, places_succ]
    cases bit with
    | false =>
      cases slots with
      | zero =>
        obtain ⟨hout, hbits, hread⟩ := ih h (Nat.zero_le _)
        cases length_eq_zero_iff.1 hout
        exact ⟨rfl, congrArg (false :: ·) hbits, hread⟩
      | succ slots =>
        obtain ⟨⟨out, n⟩, hrest, heq⟩ := ok_of_map h
        cases heq
        obtain ⟨hout, hbits, hread⟩ := ih hrest (Nat.le_of_succ_le_succ hslots)
        exact ⟨congrArg (· + 1) hout, congrArg (false :: ·) hbits, hread⟩
    | true =>
      cases data with
      | nil => cases slots <;> cases h
      | cons b data =>
        cases slots with
        | zero => cases h
        | succ slots =>
          unfold distribute at h
          split at h
          · cases h
          · rename_i hb
            obtain ⟨⟨out, n⟩, hrest, heq⟩ := ok_of_map h
            cases heq
            obtain ⟨hout, hbits, htake, hn⟩ := ih hrest (Nat.le_of_succ_le_succ hslots)
            rw [nonZeroBytes_cons hb]
            refine ⟨congrArg (· + 1) hout, ?_, ?_, ?_⟩
            · rw [headD_cons, decide_eq_true hb]
              exact congrArg (true :: ·) hbits
            · rw [take_succ_cons, htake]
            · rw [length_cons, hn]

theorem distribute_places (rest : Bytes) {n : Nat} (h : out.length ≤ n) :
    distribute (places out n) out.length (nonZeroBytes out ++ rest) =
      .ok (out, (nonZeroBytes out).length) := by
  induction n generalizing out with
  | zero =>
    cases length_eq_zero_iff.1 (Nat.le_zero.1 h)
    rfl
  | succ n ih =>
    rw [places_succ]
    cases out with
    | nil => exact ih (Nat.zero_le n)
    | cons b out =>
      have ih := ih (Nat.le_of_succ_le_succ h)
      by_cases hb : b = 0
      · subst hb
        show (distribute _ _ (nonZeroBytes out ++ rest)).map _ = _
        rw [tail_cons, ih]
        rfl
      · rw [headD_cons, decide_eq_true hb, nonZeroBytes_cons hb, length_cons, cons_append,
          distribute, if_neg hb, tail_cons, ih]
        rfl

/-! ## Both directions -/

theorem encode_of_two_le (h : 2 ≤ data.length) : bitsetEncodeBytes data =
    if nonZeroBytes data = [] then []
    else bitsetEncodeBytes (nonZeroBitset data) ++ nonZeroBytes data := by
  match data, h with
  | a :: b :: rest, _ => rw [bitsetEncodeBytes]

theorem encode_eq_nil : bitsetEncodeBytes data = [] ↔ nonZeroBytes data = [] := by
  match data with
  | [] => simp [bitsetEncodeBytes, nonZeroBytes]
  | [b] => by_cases hb : b = 0 <;> simp [bitsetEncodeBytes, nonZeroBytes, hb]
  | a :: b :: rest =>
    rw [encode_of_two_le (Nat.le_add_left 2 _)]
    split <;> simp [*]

theorem decode_of_two_le {set : Bytes} {target ptr : Nat} (hdata : data ≠ []) (h : 2 ≤ target)
    (hset : bitsetDecodePartialBytes data ((target + 7) / 8) = .ok (set, ptr)) :
    bitsetDecodePartialBytes data target =
      (distribute (set.flatMap bitsOf) target (data.drop ptr)).map fun r => (r.1, ptr + r.2) := by
  match data, target, hdata, h with
  | b :: rest, target + 2, _, _ =>
    rw [bitsetDecodePartialBytes, if_neg (Nat.succ_ne_zero _), hset]

theorem decode_nil (target : Nat) :
    bitsetDecodePartialBytes [] target = .ok (replicate target 0, 0) := by
  cases target <;> rw [bitsetDecodePartialBytes]
  rfl

/-- The set is zero if the data is. -/
theorem nonZeroBytes_bitset : nonZeroBytes (nonZeroBitset data) = [] ↔ nonZeroBytes data = [] := by
  have hzero : ∀ v : BitVec 8, (∀ bit ∈ bitsOf ⟨v⟩, bit = false) ↔ (⟨v⟩ : UInt8) = 0 := by
    decide +kernel
  have hbits : (∀ bit ∈ (nonZeroBitset data).flatMap bitsOf, bit = false) ↔
      ∀ b ∈ nonZeroBitset data, b = 0 := by
    simp only [mem_flatMap, forall_exists_index, and_imp, @forall_comm Bool]
    exact forall₂_congr fun b _ => hzero b.toBitVec
  simp only [nonZeroBytes_eq_nil, ← hbits, bits_nonZeroBitset, places, forall_mem_map, mem_range,
    decide_eq_false_iff_not, not_not]
  constructor
  · intro h b hb
    obtain ⟨i, hi, rfl⟩ := getElem_of_mem hb
    have := h i (by omega)
    rwa [getD_eq_getElem?_getD, getElem?_eq_getElem hi] at this
  · intro h i _
    rw [getD_eq_getElem?_getD]
    cases hi : data[i]? with
    | none => rfl
    | some b => exact h b (mem_of_getElem? hi)

/-- **What is decoded is encoded to what was read.** -/
theorem decodes_sound {target n : Nat} (h : bitsetDecodePartialBytes data target = .ok (out, n)) :
    out.length = target ∧ bitsetEncodeBytes out = data.take n ∧
      n = (bitsetEncodeBytes out).length := by
  induction target using Nat.strongRecOn generalizing out n with
  | ind target ih =>
    unfold bitsetDecodePartialBytes at h
    split at h
    · cases h
      simp [bitsetEncodeBytes]
    split at h
    · cases h
      rw [encode_eq_nil.2 (by simp [nonZeroBytes])]
      exact ⟨length_replicate, rfl, rfl⟩
    split at h
    · cases h
      rename_i b rest htarget
      subst htarget
      by_cases hb : b = 0 <;> simp [bitsetEncodeBytes, hb]
    split at h
    · cases h
    rename_i target b rest htarget set ptr hset
    obtain ⟨hlen, htake, hptr⟩ := ih _ (by omega) hset
    obtain ⟨⟨out, m⟩, hout, heq⟩ := ok_of_map h
    cases heq
    have hbits : (set.flatMap bitsOf).length = 8 * set.length := by
      simp [bitsOf, Nat.mul_comm]
    obtain ⟨hlen', hplaces, hread, hm⟩ := distribute_sound hout (by omega)
    have heq : set = nonZeroBitset out := by
      refine flatMap_bitsOf_inj ?_ ?_
      · rw [length_nonZeroBitset, hlen, hlen']
      · rw [bits_nonZeroBitset, hplaces, hbits, hlen, hlen']
    refine ⟨hlen', ?_⟩
    dsimp only
    rw [encode_of_two_le (by omega)]
    split
    · rename_i hnil
      rw [heq, encode_eq_nil.2 (nonZeroBytes_bitset.2 hnil)] at hptr
      rw [hnil] at hm
      simp [hptr, hm]
    · rw [← heq, length_append, ← hptr, ← hm, take_add, ← htake, hread]
      exact ⟨rfl, rfl⟩

/-- **What is encoded is decoded**, whatever follows it. -/
theorem decodes_encoded (rest : Bytes) (h : nonZeroBytes data ≠ []) :
    bitsetDecodePartialBytes (bitsetEncodeBytes data ++ rest) data.length =
      .ok (data, (bitsetEncodeBytes data).length) := by
  induction hn : data.length using Nat.strongRecOn generalizing data rest with
  | ind n ih =>
    match data, hn with
    | [], _ => exact absurd rfl h
    | [b], hn =>
      subst hn
      have hb : b ≠ 0 := by simpa [nonZeroBytes] using h
      simp [bitsetEncodeBytes, bitsetDecodePartialBytes, hb]
    | a :: b :: tail, hn =>
      set data := a :: b :: tail
      have hlen : data.length = tail.length + 1 + 1 := rfl
      have hencode := @encode_of_two_le data (Nat.le_add_left 2 _)
      rw [if_neg h] at hencode
      have hset := ih _ (by omega) (nonZeroBytes data ++ rest) (mt nonZeroBytes_bitset.1 h)
        (length_nonZeroBitset data)
      rw [← append_assoc, ← hencode] at hset
      have hne : bitsetEncodeBytes data ++ rest ≠ [] := by simp [encode_eq_nil, h]
      rw [← hn, decode_of_two_le hne (by omega) hset, bits_nonZeroBitset]
      nth_rewrite 1 [hencode]
      rw [append_assoc, drop_left, distribute_places rest (by omega), hencode, length_append]
      rfl

/-- **Bitset compression round trip.** What is compressed is decompressed and does not get longer,
and what is decompressed from less than its length is compressed to the same. -/
theorem compress_roundTrip :
    (∀ data, decompressBytes (compressBytes data) data.length = .ok data) ∧
    (∀ data, (compressBytes data).length ≤ data.length) ∧
    ∀ data target out, data.length < target → decompressBytes data target = .ok out →
      compressBytes out = data := by
  refine ⟨fun data => ?_, fun data => ?_, fun data target out hlt h => ?_⟩
  · unfold compressBytes decompressBytes
    split
    · rename_i hlt
      rw [if_neg (by omega), if_neg (by omega), bitsetDecodeBytes]
      by_cases hzero : nonZeroBytes data = []
      · rw [encode_eq_nil.2 hzero, decode_nil, ← eq_replicate_length.2 (nonZeroBytes_eq_nil.1 hzero)]
        rfl
      · have hdecode := decodes_encoded [] hzero
        rw [append_nil] at hdecode
        rw [hdecode]
        exact if_pos rfl
    · rw [if_neg (by omega), if_pos rfl]
  · unfold compressBytes
    split <;> omega
  · unfold decompressBytes bitsetDecodeBytes at h
    rw [if_neg (by omega), if_neg (by omega)] at h
    split at h
    · cases h
    · rename_i size hdecode
      obtain ⟨hlen, htake, hsize⟩ := decodes_sound hdecode
      split at h
      · rename_i heq
        cases h
        rw [heq, take_length] at htake
        rw [compressBytes, htake, if_pos (by omega)]
      · cases h

end GoAoa.Common
