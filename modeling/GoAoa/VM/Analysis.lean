import GoAoa.VM.Instructions

/-!
# The analysis of jump destinations

`core/vm/analysis.go`: the data of push instructions is marked in a vector of bits, eight at a time
where possible, and the vectors are kept by the hash of the code in a map that all the frames of a
tree of calls share. An index out of range is `none`. The vector marks exactly the bytes that the
linear decoding of the code does not start an instruction at (`codeBitmap_spec`), so that a jump
is checked against the executing code in whatever frames the map was filled (`jump_safe`).
-/

namespace GoAoa.VM

open List Function UInt8 State Word

/-! ## Vectors of bits -/

abbrev Bitvec := List UInt8

namespace Bitvec

section

variable (bits : Bitvec)

/-- `bits[i] |= mask`. -/
def mask (i : Nat) (mask : UInt8) : Option Bitvec :=
  bits[i]?.map fun b => bits.set i (b ||| mask)

/-- `set`. -/
def mark (pos : Nat) : Option Bitvec :=
  bits.mask (pos / 8) (0x80 >>> ofNat (pos % 8))

/-- `set8`. -/
def mark8 (pos : Nat) : Option Bitvec := do
  let bits ← bits.mask (pos / 8) (0xff >>> ofNat (pos % 8))
  bits.mask (pos / 8 + 1) (~~~(0xff >>> ofNat (pos % 8)))

def codeSegment (pos : Nat) : Option Bool :=
  bits[pos / 8]?.map fun b => b &&& (0x80 >>> ofNat (pos % 8)) == 0

end

/-- The loop over `numbits` that marks eight bits a round, for the number of its rounds. -/
def markOctets : Nat → Nat → Bitvec → Option Bitvec
  | 0, _, bits => some bits
  | n + 1, pos, bits => (bits.mark8 pos).bind (markOctets n (pos + 8))

/-- The loop over `numbits` that marks one bit a round. -/
def markSingles : Nat → Nat → Bitvec → Option Bitvec
  | 0, _, bits => some bits
  | n + 1, pos, bits => (bits.mark pos).bind (markSingles n (pos + 1))

end Bitvec

/-- The loop of `codeBitmap`, for a number of rounds. -/
def scan (code : Bytes) : Nat → Nat → Bitvec → Option Bitvec
  | 0, _, bits => some bits
  | fuel + 1, pc, bits =>
    if pc < code.length then
      let numbits := pushSize (code.getD pc 0)
      do
        let bits ← bits.markOctets (numbits / 8) (pc + 1)
        let bits ← bits.markSingles (numbits % 8) (pc + 1 + 8 * (numbits / 8))
        scan code fuel (pc + 1 + numbits) bits
    else some bits

/-- `codeBitmap`: each round advances, so that there are no more rounds than bytes. -/
def codeBitmap (code : Bytes) : Option Bitvec :=
  scan code code.length 0 (List.replicate (code.length / 8 + 1 + 4) 0)

/-- `destinations`, with hashes of a type `H`. -/
abbrev Destinations (H : Type) := H → Option Bitvec

/-- The analysis of the code, from the map or made now and put there. -/
def Destinations.analysis {H : Type} [DecidableEq H] (d : Destinations H) (codehash : H)
    (code : Bytes) : Option (Bitvec × Destinations H) :=
  match d codehash with
  | some m => some (m, d)
  | none => (codeBitmap code).map fun m => (m, fun h => if h = codehash then some m else d h)

def Destinations.has {H : Type} [DecidableEq H] (d : Destinations H) (codehash : H) (code : Bytes)
    (dest : Int) : Option (Bool × Destinations H) :=
  if 63 ≤ bitLen dest ∨ code.length ≤ uint64 dest then some (false, d)
  else
    (d.analysis codehash code).bind fun (m, d) =>
      if code.getD (uint64 dest) 0 == 0x5b then
        (m.codeSegment (uint64 dest)).map fun segment => (segment, d)
      else some (false, d)

/-! ## Bits -/

namespace Bitvec

variable {bits bits' : Bitvec} {pos q n : Nat}

def bitAt (bits : Bitvec) (pos : Nat) : Bool :=
  bits.getD (pos / 8) 0 &&& (0x80 >>> ofNat (pos % 8)) != 0

theorem codeSegment_eq (h : pos / 8 < bits.length) :
    bits.codeSegment pos = some (!bits.bitAt pos) := by
  unfold codeSegment bitAt
  rw [getD_eq_getElem?_getD, getElem?_eq_getElem h]
  simp [bne]

theorem or_and_ne_zero (b m s : UInt8) :
    ((b ||| m) &&& s != 0) = ((b &&& s != 0) || (m &&& s != 0)) := by
  have hdistrib : (b ||| m) &&& s = (b &&& s) ||| (m &&& s) := by
    apply UInt8.eq_of_toBitVec_eq
    ext i
    simp only [UInt8.toBitVec_and, UInt8.toBitVec_or, BitVec.getElem_and, BitVec.getElem_or]
    grind
  have hzero : ∀ x y : UInt8, x ||| y = 0 ↔ x = 0 ∧ y = 0 := by
    intro x y
    rw [← UInt8.toBitVec_inj, ← UInt8.toBitVec_inj, ← UInt8.toBitVec_inj]
    simp
  grind

theorem single_mask : ∀ a < 8, ∀ b < 8,
    ((0x80 >>> ofNat a) &&& (0x80 >>> ofNat b) != 0) = decide (a = b) := by decide

theorem low_mask : ∀ a < 8, ∀ b < 8,
    ((0xff >>> ofNat a) &&& (0x80 >>> ofNat b) != 0) = decide (a ≤ b) := by decide

theorem high_mask : ∀ a < 8, ∀ b < 8,
    (~~~(0xff >>> ofNat a) &&& (0x80 >>> ofNat b) != 0) = decide (b < a) := by decide

theorem mask_spec {i : Nat} (m : UInt8) (h : i < bits.length) :
    ∃ bits', bits.mask i m = some bits' ∧ bits'.length = bits.length ∧
      ∀ q, bits'.bitAt q = (bits.bitAt q ||
        (decide (q / 8 = i) && (m &&& (0x80 >>> ofNat (q % 8)) != 0))) := by
  unfold mask
  rw [getElem?_eq_getElem h]
  refine ⟨_, rfl, length_set .., fun q => ?_⟩
  unfold bitAt
  rw [getD_eq_getElem?_getD, getD_eq_getElem?_getD]
  by_cases hq : q / 8 = i
  · rw [hq, getElem?_set_self h, getElem?_eq_getElem h, decide_eq_true rfl, Bool.true_and]
    exact or_and_ne_zero _ _ _
  · rw [getElem?_set_ne (Ne.symm hq), decide_eq_false hq, Bool.false_and, Bool.or_false]

/-- The vector has the bits of `bits` and those of `p`. -/
def Adds (p : Nat → Prop) [DecidablePred p] (bits bits' : Bitvec) : Prop :=
  bits'.length = bits.length ∧ ∀ q, bits'.bitAt q = (bits.bitAt q || decide (p q))

theorem mark_spec (h : pos / 8 < bits.length) :
    ∃ bits', bits.mark pos = some bits' ∧ Adds (· = pos) bits bits' := by
  obtain ⟨bits', hmask, hlen, hbits⟩ := mask_spec (0x80 >>> ofNat (pos % 8)) h
  refine ⟨bits', hmask, hlen, fun q => ?_⟩
  rw [hbits, single_mask _ (Nat.mod_lt _ (by decide)) _ (Nat.mod_lt _ (by decide)),
    ← Bool.decide_and]
  congr 1
  exact decide_eq_decide.2 (by omega)

theorem mark8_spec (h : pos / 8 + 1 < bits.length) :
    ∃ bits', bits.mark8 pos = some bits' ∧ Adds (fun q => pos ≤ q ∧ q < pos + 8) bits bits' := by
  obtain ⟨bits1, hmask1, hlen1, hbits1⟩ := mask_spec (0xff >>> ofNat (pos % 8))
    (show pos / 8 < bits.length by omega)
  obtain ⟨bits', hmask, hlen, hbits⟩ := mask_spec (~~~(0xff >>> ofNat (pos % 8)))
    (show pos / 8 + 1 < bits1.length by omega)
  refine ⟨bits', ?_, hlen.trans hlen1, fun q => ?_⟩
  · unfold mark8
    rw [hmask1]
    exact hmask
  · rw [hbits, hbits1, low_mask _ (Nat.mod_lt _ (by decide)) _ (Nat.mod_lt _ (by decide)),
      high_mask _ (Nat.mod_lt _ (by decide)) _ (Nat.mod_lt _ (by decide)), ← Bool.decide_and,
      ← Bool.decide_and, Bool.or_assoc, ← Bool.decide_or]
    congr 1
    exact decide_eq_decide.2 (by omega)

theorem markOctets_spec (h : (pos + 8 * n) / 8 < bits.length) :
    ∃ bits', bits.markOctets n pos = some bits' ∧
      Adds (fun q => pos ≤ q ∧ q < pos + 8 * n) bits bits' := by
  induction n generalizing pos bits with
  | zero => exact ⟨bits, rfl, rfl, fun q => by simp⟩
  | succ n ih =>
    obtain ⟨bits1, hmark, hlen1, hbits1⟩ := mark8_spec (show pos / 8 + 1 < bits.length by omega)
    obtain ⟨bits', hrest, hlen, hbits⟩ := ih (show (pos + 8 + 8 * n) / 8 < bits1.length by omega)
    refine ⟨bits', ?_, hlen.trans hlen1, fun q => ?_⟩
    · unfold markOctets
      rw [hmark]
      exact hrest
    · rw [hbits, hbits1, Bool.or_assoc, ← Bool.decide_or]
      congr 1
      exact decide_eq_decide.2 (by omega)

theorem markSingles_spec (h : n = 0 ∨ (pos + n - 1) / 8 < bits.length) :
    ∃ bits', bits.markSingles n pos = some bits' ∧
      Adds (fun q => pos ≤ q ∧ q < pos + n) bits bits' := by
  induction n generalizing pos bits with
  | zero => exact ⟨bits, rfl, rfl, fun q => by simp⟩
  | succ n ih =>
    obtain ⟨bits1, hmark, hlen1, hbits1⟩ := mark_spec (show pos / 8 < bits.length by omega)
    obtain ⟨bits', hrest, hlen, hbits⟩ := ih (show n = 0 ∨ (pos + 1 + n - 1) / 8 < bits1.length by omega)
    refine ⟨bits', ?_, hlen.trans hlen1, fun q => ?_⟩
    · unfold markSingles
      rw [hmark]
      exact hrest
    · rw [hbits, hbits1, Bool.or_assoc, ← Bool.decide_or]
      congr 1
      exact decide_eq_decide.2 (by omega)

end Bitvec

/-! ## The scan -/

theorem pushSize_le (op : UInt8) : pushSize op ≤ 32 := by
  unfold pushSize
  split
  · rename_i h
    have := le_iff_toNat_le.1 h.2
    simp only [reduceToNat] at this
    omega
  · omega

theorem decoding_getD (k : Nat) (code : Bytes) (i : Nat) : (decoding k code).getD i false =
      (decide (k ≤ i) && (decoding 0 (code.drop k)).getD (i - k) false) := by
  induction k generalizing code i with
  | zero => simp
  | succ k ih =>
    cases code with
    | nil => simp [decoding]
    | cons b code =>
      cases i with
      | zero => rfl
      | succ i =>
        show (decoding k code).getD i false = _
        rw [ih, drop_succ_cons, Nat.add_sub_add_right]
        congr 1
        exact decide_eq_decide.2 (by omega)

theorem decoding_drop {code : Bytes} {pc q : Nat} (hpc : pc < code.length) (hq : pc < q) :
    (decoding 0 (code.drop pc)).getD (q - pc) false =
      (decide (pc + 1 + pushSize (code.getD pc 0) ≤ q) &&
        (decoding 0 (code.drop (pc + 1 + pushSize (code.getD pc 0)))).getD
          (q - (pc + 1 + pushSize (code.getD pc 0))) false) := by
  have hop : code.getD pc 0 = code[pc] := by
    rw [getD_eq_getElem?_getD, getElem?_eq_getElem hpc]
    rfl
  obtain ⟨i, rfl⟩ : ∃ i, q = pc + 1 + i := ⟨q - (pc + 1), by omega⟩
  rw [hop, drop_eq_getElem_cons hpc, show pc + 1 + i - pc = i + 1 by omega]
  show (decoding (pushSize code[pc]) (code.drop (pc + 1))).getD i false = _
  rw [decoding_getD, drop_drop, Nat.add_sub_add_left]
  congr 1
  exact decide_eq_decide.2 (by omega)

/-- The scan marks what is not the start of an instruction from `pc` on, if `pc` is one. -/
theorem scan_spec {code : Bytes} {fuel pc : Nat} {bits : Bitvec}
    (hlen : bits.length = code.length / 8 + 1 + 4) (hfuel : code.length ≤ pc + fuel)
    (hclear : ∀ q, pc ≤ q → bits.bitAt q = false) :
    ∃ bits', scan code fuel pc bits = some bits' ∧ bits'.length = bits.length ∧
      ∀ q < code.length, bits'.bitAt q =
        if q < pc then bits.bitAt q else !(decoding 0 (code.drop pc)).getD (q - pc) false := by
  induction fuel generalizing pc bits with
  | zero => exact ⟨bits, rfl, rfl, fun q hq => by rw [if_pos (by omega)]⟩
  | succ fuel ih =>
    unfold scan
    by_cases hpc : pc < code.length
    · rw [if_pos hpc]
      dsimp only
      have hsize := pushSize_le (code.getD pc 0)
      generalize hn : pushSize (code.getD pc 0) = n at hsize
      obtain ⟨bits1, hoctets, hlen1, hbits1⟩ := Bitvec.markOctets_spec
        (show (pc + 1 + 8 * (n / 8)) / 8 < bits.length by omega)
      obtain ⟨bits2, hsingles, hlen2, hbits2⟩ := Bitvec.markSingles_spec
        (show n % 8 = 0 ∨ (pc + 1 + 8 * (n / 8) + n % 8 - 1) / 8 < bits1.length by omega)
      have hmarked : ∀ q, bits2.bitAt q = (bits.bitAt q || decide (pc + 1 ≤ q ∧ q < pc + 1 + n)) := by
        intro q
        rw [hbits2, hbits1, Bool.or_assoc, ← Bool.decide_or]
        congr 1
        exact decide_eq_decide.2 (by omega)
      obtain ⟨bits', hscan, hlen', hbits'⟩ := ih
        (show bits2.length = code.length / 8 + 1 + 4 by omega)
        (show code.length ≤ pc + 1 + n + fuel by omega) fun q hq => by
          rw [hmarked, hclear q (by omega), decide_eq_false (by omega)]
          rfl
      refine ⟨bits', ?_, by omega, fun q hq => ?_⟩
      · rw [hoctets]
        show (Bitvec.markSingles _ _ bits1).bind _ = _
        rw [hsingles]
        exact hscan
      · rw [hbits' q hq, hmarked]
        rcases Nat.lt_trichotomy q pc with h | rfl | h
        · rw [if_pos (by omega), if_pos h, decide_eq_false (by omega), Bool.or_false]
        · rw [if_pos (by omega), if_neg (by omega), hclear q (by omega), decide_eq_false (by omega),
            Nat.sub_self, drop_eq_getElem_cons hpc]
          rfl
        · rw [if_neg (show ¬ q < pc by omega), decoding_drop hpc h, hn, hclear q (by omega)]
          split
          · rw [decide_eq_true (by omega), decide_eq_false (by omega)]
            rfl
          · rw [decide_eq_true (show pc + 1 + n ≤ q by omega), Bool.true_and]
    · rw [if_neg hpc]
      exact ⟨bits, rfl, rfl, fun q hq => by rw [if_pos (by omega)]⟩

/-- **The analysis is the linear decoding**, and no index is out of range. -/
theorem codeBitmap_spec (code : Bytes) : ∃ bits, codeBitmap code = some bits ∧ ∀ pos < code.length,
      bits.codeSegment pos = some ((decoding 0 code).getD pos false) := by
  have hclear : ∀ q, 0 ≤ q → Bitvec.bitAt (replicate (code.length / 8 + 1 + 4) 0) q = false := by
    intro q _
    unfold Bitvec.bitAt
    rw [getD_eq_getElem?_getD, getElem?_replicate]
    split <;> simp
  obtain ⟨bits, hscan, hlen, hbits⟩ := scan_spec
    (length_replicate ..) (show code.length ≤ 0 + code.length by omega) hclear
  refine ⟨bits, hscan, fun pos hpos => ?_⟩
  rw [length_replicate] at hlen
  rw [Bitvec.codeSegment_eq (by omega), hbits pos hpos, if_neg (by omega), Bool.not_not]
  rfl

/-! ## Trees of calls -/

/-- The code of a frame. It is in memory, which has room for less than 2^62 bytes. -/
structure Program where
  code : Bytes
  bound : code.length ≤ 2 ^ 62

/-- What a frame does that concerns the map of destinations: a `JUMP`, or a `JUMPI` whose condition
holds, to any word, or a call that runs a program and does things in turn. -/
inductive Activity where
  | jump (dest : BitVec 256)
  | call (p : Program) (body : List Activity)

/-- The activities of a frame with the map of its tree, which it shares with the frames below: which
jumps succeed, in order, and the map. The hash of the code is what `SetCallCode` is given. -/
def Activity.runs {H : Type} [DecidableEq H] (hash : Bytes → H) (p : Program) :
    List Activity → Destinations H → Option (List Bool × Destinations H)
  | [], d => some ([], d)
  | .jump dest :: rest, d => do
    let (ok, d) ← d.has (hash p.code) p.code dest.toNat
    let (oks, d) ← Activity.runs hash p rest d
    some (ok :: oks, d)
  | .call q body :: rest, d => do
    let (oks, d) ← Activity.runs hash q body d
    let (oks', d) ← Activity.runs hash p rest d
    some (oks ++ oks', d)

/-- The position is that of a `JUMPDEST` that starts an instruction in the linear decoding. -/
def isTarget (code : Bytes) (pos : Nat) : Bool :=
  code[pos]? == some 0x5b && (decoding 0 code).getD pos false

/-- The jumps that should succeed. -/
def Activity.verdicts (p : Program) : List Activity → List Bool
  | [] => []
  | .jump dest :: rest => isTarget p.code dest.toNat :: Activity.verdicts p rest
  | .call q body :: rest => Activity.verdicts q body ++ Activity.verdicts p rest

section Trees

variable {H : Type} [DecidableEq H] {hash : Bytes → H} {d : Destinations H}

/-- What the map has for the hash of a code is the analysis of that code. -/
def Consistent (hash : Bytes → H) (d : Destinations H) : Prop :=
  ∀ code bits, d (hash code) = some bits → codeBitmap code = some bits

theorem bitLen_natCast (n : Nat) : 63 ≤ bitLen n ↔ 2 ^ 62 ≤ n := by
  unfold bitLen
  split
  · omega
  · have hlog := Nat.le_log2 (n := n) (k := 62) (by omega)
    rw [Int.natAbs_natCast]
    omega

theorem inRange_iff (p : Program) (dest : BitVec 256) :
    (63 ≤ bitLen (dest.toNat : Int) ∨ p.code.length ≤ uint64 (dest.toNat : Int)) ↔
      p.code.length ≤ dest.toNat := by
  have hbound := p.bound
  rw [bitLen_natCast]
  unfold uint64
  omega

theorem analysis_spec (hinj : Injective hash) (hd : Consistent hash d) {code : Bytes}
    {bits : Bitvec} (hbits : codeBitmap code = some bits) :
    ∃ d', d.analysis (hash code) code = some (bits, d') ∧ Consistent hash d' := by
  unfold Destinations.analysis
  cases hcache : d (hash code) with
  | some =>
    obtain rfl := Option.some.inj ((hd _ _ hcache).symm.trans hbits)
    exact ⟨d, rfl, hd⟩
  | none =>
    rw [hbits]
    refine ⟨_, rfl, fun code' m hm => ?_⟩
    split at hm
    · rename_i heq
      rw [hinj heq, ← hm]
      exact hbits
    · exact hd _ _ hm

/-- One jump: the answer is that of the decoding, whether the analysis is there or made now. -/
theorem has_spec (hinj : Injective hash) (hd : Consistent hash d) (p : Program)
    (dest : BitVec 256) :
    ∃ d', d.has (hash p.code) p.code dest.toNat = some (isTarget p.code dest.toNat, d') ∧
      Consistent hash d' := by
  have hrange := inRange_iff p dest
  unfold Destinations.has isTarget
  by_cases hdest : p.code.length ≤ dest.toNat
  · rw [if_pos (hrange.2 hdest), getElem?_eq_none hdest]
    exact ⟨d, rfl, hd⟩
  · have hbound := p.bound
    have hpos : uint64 (dest.toNat : Int) = dest.toNat := by
      unfold uint64
      rw [Int.natAbs_natCast]
      omega
    obtain ⟨bits, hbits, hsegment⟩ := codeBitmap_spec p.code
    obtain ⟨d', hanalysis, hd'⟩ := analysis_spec hinj hd hbits
    refine ⟨d', ?_, hd'⟩
    rw [if_neg fun h => hdest (hrange.1 h), hanalysis, hpos, getD_eq_getElem?_getD,
      getElem?_eq_getElem (by omega)]
    show (if p.code[dest.toNat] == 0x5b then (bits.codeSegment dest.toNat).map _ else _) = _
    rw [hsegment _ (by omega)]
    cases hop : p.code[dest.toNat] == 0x5b with
    | true => simp [eq_of_beq hop]
    | false => simp [ne_of_beq_false hop]

theorem Activity.runs_spec (hinj : Injective hash) :
    ∀ (p : Program) (acts : List Activity) (d : Destinations H), Consistent hash d →
      ∃ d', Activity.runs hash p acts d = some (Activity.verdicts p acts, d') ∧ Consistent hash d'
  | _, [], d, hd => ⟨d, by rw [Activity.runs, Activity.verdicts], hd⟩
  | p, .jump dest :: rest, d, hd => by
    obtain ⟨d1, hhas, hd1⟩ := has_spec hinj hd p dest
    obtain ⟨d2, hrest, hd2⟩ := Activity.runs_spec hinj p rest d1 hd1
    refine ⟨d2, ?_, hd2⟩
    rw [Activity.runs, Activity.verdicts, hhas]
    show (Activity.runs hash p rest d1).bind _ = _
    rw [hrest]
    rfl
  | p, .call q body :: rest, d, hd => by
    obtain ⟨d1, hbody, hd1⟩ := Activity.runs_spec hinj q body d hd
    obtain ⟨d2, hrest, hd2⟩ := Activity.runs_spec hinj p rest d1 hd1
    refine ⟨d2, ?_, hd2⟩
    rw [Activity.runs, Activity.verdicts, hbody]
    show (Activity.runs hash p rest d1).bind _ = _
    rw [hrest]
    rfl

theorem isJumpdest_word (p : Program) (dest : BitVec 256) :
    isJumpdest p.code dest.toNat = isTarget p.code dest.toNat := by
  have hrange := inRange_iff p dest
  have hbound := p.bound
  unfold isJumpdest isTarget
  by_cases hdest : p.code.length ≤ dest.toNat
  · rw [if_pos (hrange.2 hdest), getElem?_eq_none hdest]
    rfl
  · have hpos : uint64 (dest.toNat : Int) = dest.toNat := by
      unfold uint64
      omega
    rw [if_neg fun h => hdest (hrange.1 h), hpos, getD_eq_getElem?_getD,
      getElem?_eq_getElem (by omega)]
    rfl

def Machine.jumped (m : Machine) (dest : BitVec 256) : Machine := { m with pc := dest.toNat }

theorem jumpTo_word {f : Frame} {p : Program} (hf : f.code = p.code) (m : Machine)
    (dest : BitVec 256) :
    jumpTo f m dest.toNat =
      if isTarget p.code dest.toNat then done (m.jumped dest) else pure (.error .invalidJump) := by
  unfold jumpTo
  rw [hf, isJumpdest_word]
  cases htarget : isTarget p.code dest.toNat with
  | false => rfl
  | true =>
    have hlt : dest.toNat < p.code.length := by
      by_contra hge
      unfold isTarget at htarget
      rw [getElem?_eq_none (by omega)] at htarget
      cases htarget
    have hpos : uint64 (dest.toNat : Int) = dest.toNat := by
      have := p.bound
      unfold uint64
      rw [Int.natAbs_natCast]
      omega
    rw [if_pos rfl, if_pos rfl, hpos]
    rfl

/-- **Jumps are safe.** In every tree of calls that starts with an empty map the analysis completes,
and the jumps that succeed are those to a `JUMPDEST` that starts an instruction of the executing
code. The instructions of the interpreter agree. -/
theorem jump_safe (hinj : Function.Injective hash) (p : Program) (acts : List Activity) :
    (∃ d, Activity.runs hash p acts (fun _ => none) = some (Activity.verdicts p acts, d)) ∧
      ∀ (c : Context) (f : Frame) (m : Machine) (dest : BitVec 256) (cond : Int) (rest : List Int),
        f.code = p.code → cond ≠ 0 →
        opJump c f (m.withStack (dest.toNat :: rest)) =
            (if isTarget p.code dest.toNat then done ((m.withStack rest).jumped dest)
              else pure (.error .invalidJump)) ∧
          opJumpi c f (m.withStack (dest.toNat :: cond :: rest)) =
            (if isTarget p.code dest.toNat then done ((m.withStack rest).jumped dest)
              else pure (.error .invalidJump)) := by
  refine ⟨?_, fun c f m dest cond rest hf hcond => ⟨jumpTo_word hf _ dest, ?_⟩⟩
  · obtain ⟨d, hrun, -⟩ := Activity.runs_spec hinj p acts (fun _ => none) fun _ _ h => nomatch h
    exact ⟨d, hrun⟩
  · show (if cond = 0 then _ else _) = _
    rw [if_neg hcond]
    exact jumpTo_word hf _ dest

def pushProgram : Program := ⟨[0x60, 0x5b, 0x5b], by decide⟩

/-- Jumps to the data, and in a frame below that runs other code, and to the destination. -/
def pushActivity : List Activity :=
  [.jump 1, .call ⟨[0x5b], by decide⟩ [.jump 0, .jump 1], .jump 2]

theorem jump_safe_small : ∃ d, Activity.runs id pushProgram pushActivity (fun _ => none) =
      some ([false, true, false, true], d) := by
  have hverdicts : Activity.verdicts pushProgram pushActivity = [false, true, false, true] := by
    simp only [pushActivity, Activity.verdicts]
    decide
  rw [← hverdicts]
  exact (@jump_safe Bytes _ id (fun _ _ h => h) pushProgram pushActivity).1

end Trees

end GoAoa.VM
