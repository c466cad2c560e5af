import GoAoa.VM.Interpreter

/-!
# What instructions ask for

An instruction body is a program over the effects. Most are `Local`: they ask for nothing but to
read the state, they leave the gas alone, and only a jump or a copy can go wrong. The others
differ in the effect they ask for, and they ask for it once.
-/

namespace GoAoa.VM

open List Option Machine State Prog

/-- The gas is as before, or an operand is out of range. -/
def Kept (gas : Nat) : Result → Prop
  | .ok (m, _) => m.gas = gas
  | .error e => e = .invalidJump ∨ e = .returnDataOutOfBounds

/-- The instruction asks for nothing but effects in `P`, whatever they answer, and keeps the gas. -/
def Asks (P : Machine → Effect → Prop) (x : ExecutionFunc) : Prop :=
  ∀ c f m, (x c f m).Ends (P m) (fun _ _ => True) (Kept m.gas)

/-- The instruction only reads. -/
def Local (x : ExecutionFunc) : Prop := Asks (fun _ e => e = .read) x

variable {P : Effect → Prop} {R : (e : Effect) → Effect.Ans e → Prop} {Q : Result → Prop}
  {m : Machine}

section Rules

variable {gas : Nat}

theorem ends_done (h : m.gas = gas) : (done m).Ends P R (Kept gas) := h

theorem ends_orFail {α : Type} {x : Option α} {k : α → Code Result} (h : ∀ a, (k a).Ends P R Q) :
    (orFail x k).Ends P R Q := by
  cases x with
  | none => exact ends_fail
  | some a => exact h a

theorem ends_pop {k : Machine → Int → Code Result}
    (h : ∀ s x, m.stack = x :: s → (k (m.withStack s) x).Ends P R Q) : (m.pop k).Ends P R Q := by
  unfold pop
  cases hs : m.stack with
  | nil => exact ends_fail
  | cons x s => exact h s x hs

theorem ends_jumpTo {f : Frame} {pos : Int} (h : m.gas = gas) :
    (jumpTo f m pos).Ends P R (Kept gas) := by
  unfold jumpTo
  split
  · exact ends_done h
  · exact ends_pure (.inl rfl)

theorem ends_copyData {data : Bytes} {memOffset dataOffset length : Int} (h : m.gas = gas) :
    (copyData m data memOffset dataOffset length).Ends P R (Kept gas) :=
  ends_orFail fun _ => ends_orFail fun _ => ends_done h

end Rules

/-! ## Instructions that only read -/

theorem local_opPushWord (w : Context → Frame → Machine → Int) : Local (opPushWord w) :=
  fun _ _ _ => ends_done rfl

theorem local_opUnary (w : Int → Int) : Local (opUnary w) :=
  fun _ _ _ => ends_pop fun _ _ _ => ends_done rfl

theorem local_opBinary (w : Int → Int → Int) : Local (opBinary w) :=
  fun _ _ _ => ends_pop fun _ _ _ => ends_pop fun _ _ _ => ends_done rfl

theorem local_opTernary (w : Int → Int → Int → Int) : Local (opTernary w) :=
  fun _ _ _ => ends_pop fun _ _ _ => ends_pop fun _ _ _ => ends_pop fun _ _ _ => ends_done rfl

theorem local_opRead (w : View → Frame → Int → Int) : Local (opRead w) :=
  fun _ _ _ => ends_pop fun _ _ _ => ⟨rfl, fun _ _ => ends_done rfl⟩

theorem local_opSignExtend : Local opSignExtend := by
  intro c f m
  refine ends_pop fun s back _ => ?_
  split
  · refine ends_pop fun _ _ _ => ?_
    split
    · exact ends_fail
    · exact ends_done rfl
  · exact ends_done rfl

theorem local_opByte : Local opByte := by
  intro c f m
  refine ends_pop fun _ th _ => ends_pop fun _ _ _ => ?_
  split
  · exact ends_orFail fun _ => ends_done rfl
  · exact ends_done rfl

theorem local_opCallDataLoad : Local opCallDataLoad :=
  fun _ _ _ => ends_pop fun _ _ _ => ends_orFail fun _ => ends_done rfl

theorem local_opSha3 : Local opSha3 :=
  fun _ _ _ => ends_pop fun _ _ _ => ends_pop fun _ _ _ => ends_orFail fun _ => ends_done rfl

theorem local_opCopy (data : Frame → Bytes) : Local (opCopy data) :=
  fun _ _ _ => ends_pop fun _ _ _ => ends_pop fun _ _ _ => ends_pop fun _ _ _ =>
    ends_copyData rfl

theorem local_opExtCodeCopy : Local opExtCodeCopy :=
  fun _ _ _ => ends_pop fun _ _ _ => ends_pop fun _ _ _ => ends_pop fun _ _ _ =>
    ends_pop fun _ _ _ => ⟨rfl, fun _ _ => ends_copyData rfl⟩

theorem local_opReturnDataCopy : Local opReturnDataCopy := by
  intro c f m
  refine ends_pop fun _ _ _ => ends_pop fun _ _ _ => ends_pop fun _ _ _ => ?_
  dsimp only
  split
  · exact ends_pure (.inr rfl)
  split
  · exact ends_fail
  · exact ends_orFail fun _ => ends_done rfl

theorem local_opPop : Local opPop := fun _ _ _ => ends_pop fun _ _ _ => ends_done rfl

theorem local_opMload : Local opMload :=
  fun _ _ _ => ends_pop fun _ _ _ => ends_orFail fun _ => ends_done rfl

theorem local_opMstore : Local opMstore :=
  fun _ _ _ => ends_pop fun _ _ _ => ends_pop fun _ _ _ => ends_orFail fun _ => ends_done rfl

theorem local_opMstore8 : Local opMstore8 :=
  fun _ _ _ => ends_pop fun _ _ _ => ends_pop fun _ _ _ => ends_orFail fun _ => ends_done rfl

theorem local_opJump : Local opJump := fun _ _ _ => ends_pop fun _ _ _ => ends_jumpTo rfl

theorem local_opJumpi : Local opJumpi := by
  intro c f m
  refine ends_pop fun _ _ _ => ends_pop fun _ cond _ => ?_
  split
  · exact ends_done rfl
  · exact ends_jumpTo rfl

theorem local_opJumpdest : Local opJumpdest := fun _ _ _ => ends_done rfl

theorem local_opStop : Local opStop := fun _ _ _ => ends_done rfl

theorem local_opReturn : Local opReturn :=
  fun _ _ _ => ends_pop fun _ _ _ => ends_pop fun _ _ _ => ends_orFail fun _ => ends_pure rfl

theorem local_makePush (size : Nat) : Local (makePush size) := fun _ _ _ => ends_done rfl

theorem local_makeDup (n : Nat) : Local (makeDup n) :=
  fun _ _ _ => ends_orFail fun _ => ends_done rfl

theorem local_makeSwap (n : Nat) : Local (makeSwap n) :=
  fun _ _ _ => ends_orFail fun _ => ends_pop fun _ _ _ => ends_done rfl

theorem local_opBalanceOf : Local opBalanceOf :=
  fun _ _ _ => ends_pop fun _ _ _ => ends_pop fun _ _ _ => ⟨rfl, fun _ _ => ends_done rfl⟩

theorem local_opDelegates (w : (AList fun _ : Address => Nat) → Frame → Int → Int) :
    Local (opDelegates w) :=
  fun _ _ _ => ends_pop fun _ _ _ => ends_orFail fun _ => ends_done rfl

theorem local_opGetCandidateVoteInfoFors : Local opGetCandidateVoteInfoFors :=
  fun _ _ _ => ends_pop fun _ _ _ => ends_pop fun _ _ _ => ends_pop fun _ _ _ =>
    ends_pop fun _ _ _ => ends_pop fun _ _ _ => ends_orFail fun _ => ends_done rfl

theorem forall_plain {p : Operation → Prop} (hlist : ∀ e ∈ plainList, p e.2)
    (hpush : ∀ i, p (.const (makePush i) gasFastestStep 0 1))
    (hdup : ∀ i, p (.const (makeDup i) gasFastestStep i (i + 1)))
    (hswap : ∀ i, p (.const (makeSwap i) gasFastestStep (i + 1) (i + 1))) :
    ∀ e ∈ plainOperations, p e.2 :=
  forall_mem_append.2 ⟨forall_mem_append.2 ⟨forall_mem_append.2
    ⟨hlist, forall_mem_map.2 fun i _ => hpush (i + 1)⟩,
    forall_mem_map.2 fun i _ => hdup (i + 1)⟩,
    forall_mem_map.2 fun i _ => hswap (i + 1)⟩

/-- **Instructions with a constant price only read.** -/
theorem local_plain : ∀ e ∈ plainOperations, Local e.2.execute := by
  refine forall_plain (p := fun o => Local o.execute) ?_ local_makePush local_makeDup local_makeSwap
  simp only [plainList, ← forall_iff_forall_mem, Forall]
  and_intros <;> first
    | exact local_opPushWord _ | exact local_opUnary _ | exact local_opBinary _
    | exact local_opTernary _ | exact local_opDelegates _ | exact fun c f => local_opUnary _ c f
    | exact local_opSignExtend | exact local_opByte | exact local_opCallDataLoad | exact local_opPop
    | exact local_opJump | exact local_opJumpi | exact local_opJumpdest
    | exact local_opGetCandidateVoteInfoFors

theorem gasCost_plain : ∀ e ∈ plainOperations, ∃ gas, 0 < gas ∧ e.2.gasCost = constGasFunc gas := by
  refine forall_plain (p := fun o => ∃ gas, 0 < gas ∧ o.gasCost = constGasFunc gas) ?_
    (fun _ => ⟨_, Nat.one_pos, rfl⟩) (fun _ => ⟨_, Nat.one_pos, rfl⟩) fun _ => ⟨_, Nat.one_pos, rfl⟩
  simp only [plainList, ← forall_iff_forall_mem, Forall]
  and_intros <;> exact ⟨_, by decide, rfl⟩

theorem local_priced : ∀ e ∈ pricedOperations, Local e.2.execute := by
  simp only [pricedOperations, ← forall_iff_forall_mem, Forall]
  exact ⟨local_opBinary _, local_opSha3, local_opRead _, local_opCopy _, local_opCopy _,
    local_opRead _, local_opExtCodeCopy, local_opReturnDataCopy, local_opMload, local_opMstore,
    local_opMstore8, local_opRead _, local_opBalanceOf⟩

/-! ## Instructions that write -/

theorem asks_opSstore : Asks (fun _ e => ∃ key value, e = .sstore key value) opSstore :=
  fun _ _ _ => ends_pop fun _ _ _ => ends_pop fun _ _ _ => ⟨⟨_, _, rfl⟩, fun _ _ => ends_done rfl⟩

theorem asks_makeLog (n : Nat) :
    Asks (fun _ e => ∃ topics data number, e = .log topics data number) (makeLog n) := by
  intro c f m
  refine ends_pop fun _ _ _ => ends_pop fun _ _ _ => ?_
  split
  · exact ends_fail
  · exact ends_orFail fun _ => ⟨⟨_, _, _, rfl⟩, fun _ _ => ends_done rfl⟩

theorem asks_opSuicide : Asks (fun _ e => ∃ beneficiary, e = .suicide beneficiary) opSuicide :=
  fun _ _ _ => ends_pop fun _ _ _ => ⟨⟨_, rfl⟩, fun _ _ => ends_done rfl⟩

theorem ends_opTransferAsset (c : Context) (f : Frame) (m : Machine) : (opTransferAsset c f m).Ends
      (fun e => ∃ recipient asset, e = .transferAsset recipient asset (Word.u256 (m.back 0)).toNat)
      (fun _ _ => True)
      fun r => Kept m.gas r ∨ r = .error .insufficientBalance := by
  refine ends_pop fun s value hs => ends_pop fun _ _ _ => ends_pop fun _ _ _ => ?_
  have hback : m.back 0 = value := by unfold back; rw [hs]; rfl
  refine ⟨⟨_, _, by rw [hback]⟩, fun ok _ => ?_⟩
  cases ok with
  | true => exact .inl rfl
  | false => exact .inr rfl

/-! ## Gas functions -/

/-- The gas and the stack are as before, and the price is at least `low` of the gas that is set
aside for a call. -/
def Priced (low : Nat → Nat) (m : Machine) (r : Charge) : Prop :=
  ∀ cost m', r = some (cost, m') → m'.gas = m.gas ∧ m'.stack = m.stack ∧ low m'.callGasTemp ≤ cost

/-- The gas function asks for nothing but effects in `P`, and the price is at least `low`. -/
def Prices (P : Effect → Prop) (low : GasTable → Nat → Nat) (x : GasFunc) : Prop :=
  ∀ c f m size, (x c f m size).Ends P (fun _ _ => True) (Priced (low c.gasTable) m)

section Prices

variable {m' : Machine} {size cost fee x y z : Nat}

theorem memoryGasCost_eq (h : memoryGasCost m size = some (fee, m')) :
    m'.gas = m.gas ∧ m'.stack = m.stack := by
  unfold memoryGasCost at h
  split at h
  · cases h; exact ⟨rfl, rfl⟩
  · split at h
    · cases h
    · dsimp only at h
      split at h <;> (cases h; exact ⟨rfl, rfl⟩)

theorem safeAdd_eq (h : safeAdd x y = some z) : z = x + y := by
  unfold safeAdd at h
  split at h
  · exact (some.inj h).symm
  · cases h

section Charge

variable {low : Nat → Nat}

theorem priced_some {gas : Nat} (h : low m.callGasTemp ≤ gas) : Priced low m (some (gas, m)) := by
  intro cost m' heq
  cases heq
  exact ⟨rfl, rfl, h⟩

theorem priced_bind {α : Type} {x : Option α} {k : α → Charge} (h : ∀ a, Priced low m (k a)) :
    Priced low m (x >>= k) := by
  intro cost m' hr
  obtain ⟨a, -, hk⟩ := bind_eq_some_iff.1 hr
  exact h a cost m' hk

theorem priced_safeAdd {k : Nat → Charge} (h : Priced low m (k (x + y))) :
    Priced low m (safeAdd x y >>= k) := by
  intro cost m' hr
  obtain ⟨z, hz, hk⟩ := bind_eq_some_iff.1 hr
  rw [safeAdd_eq hz] at hk
  exact h cost m' hk

theorem priced_memory {k : Nat × Machine → Charge} (h : ∀ fee m', Priced low m' (k (fee, m'))) :
    Priced low m (memoryGasCost m size >>= k) := by
  intro cost m' hr
  obtain ⟨⟨fee, m₁⟩, hfee, hk⟩ := bind_eq_some_iff.1 hr
  obtain ⟨hg, hs⟩ := memoryGasCost_eq hfee
  obtain ⟨hg', hs', hle⟩ := h fee m₁ cost m' hk
  exact ⟨hg'.trans hg, hs'.trans hs, hle⟩

end Charge

theorem prices_constGasFunc (gas : Nat) : Prices P (fun _ _ => gas) (constGasFunc gas) :=
  fun _ _ _ _ => ends_pure (priced_some (Nat.le_refl _))

theorem prices_memoryGasCost : Prices P (fun _ _ => 0) fun _ _ m size => pure (memoryGasCost m size) :=
  fun _ _ _ _ => ends_pure fun _ _ h =>
    ⟨(memoryGasCost_eq h).1, (memoryGasCost_eq h).2, Nat.zero_le _⟩

theorem prices_gasMemory (base : Nat) : Prices P (fun _ _ => base) (gasMemory base) :=
  fun _ _ _ _ => ends_pure <| priced_memory fun _ _ => priced_safeAdd <|
    priced_some (Nat.le_add_left _ _)

theorem prices_gasMemoryWords (base perWord back : Nat) :
    Prices P (fun _ _ => base) (gasMemoryWords base perWord back) :=
  fun _ _ _ _ => ends_pure <| priced_memory fun _ _ => priced_safeAdd <| priced_bind fun _ =>
    priced_bind fun _ => priced_safeAdd <| priced_some (by dsimp only; omega)

theorem prices_table (price : GasTable → Nat) :
    Prices P (fun t _ => price t) fun c => constGasFunc (price c.gasTable) c :=
  fun c f m size => prices_constGasFunc (price c.gasTable) c f m size

theorem prices_gasExp : Prices P (fun _ _ => gasSlowStep) gasExp :=
  fun _ _ _ _ => ends_pure <| priced_safeAdd <| priced_some (Nat.le_add_left _ _)

theorem prices_makeGasLog (n : Nat) : Prices P (fun _ _ => logGas) (makeGasLog n) :=
  fun _ _ _ _ => ends_pure <| priced_bind fun _ => priced_memory fun _ _ => priced_safeAdd <|
    priced_safeAdd <| priced_bind fun _ => priced_safeAdd <| priced_some (by dsimp only; omega)

theorem prices_gasTransferAsset : Prices P (fun _ _ => transferAssetGas) gasTransferAsset :=
  fun _ _ _ _ => ends_pure <| priced_safeAdd <| priced_some (Nat.le_add_left _ _)

theorem priced_gasCalls (base : Nat) (c : Context) :
    Priced (fun temp => base + temp) m (gasCalls base c m size) := by
  refine priced_memory fun _ _ => priced_safeAdd <| priced_bind fun temp => priced_safeAdd ?_
  intro cost m' heq
  cases heq
  exact ⟨rfl, rfl, by dsimp only; omega⟩

def callPrice (gasTable : GasTable) (temp : Nat) : Nat := gasTable.calls + temp

theorem Priced.mono {low low' : Nat → Nat} {r : Charge} (h : Priced low m r)
    (hle : ∀ temp, low' temp ≤ low temp) : Priced low' m r := fun cost m' hr =>
  ⟨(h cost m' hr).1, (h cost m' hr).2.1, Nat.le_trans (hle _) (h cost m' hr).2.2⟩

theorem prices_gasCall : Prices (· = .read) callPrice gasCall :=
  fun _ _ _ _ => ⟨rfl, fun _ _ => ends_pure ((priced_gasCalls _ _).mono fun _ => by
    unfold callPrice; omega)⟩

theorem prices_gasCallCode : Prices P callPrice gasCallCode :=
  fun _ _ _ _ => ends_pure ((priced_gasCalls _ _).mono fun _ => by unfold callPrice; omega)

theorem prices_gasDelegateCall : Prices P callPrice gasDelegateCall :=
  fun _ _ _ _ => ends_pure (priced_gasCalls _ _)

/-- A gas function may read, and two of them add to the refund counter. -/
def ReadsOrRefunds (e : Effect) : Prop := e = .read ∨ ∃ gas, e = .refund gas

theorem prices_gasSStore : Prices ReadsOrRefunds (fun _ _ => sstoreResetGas) gasSStore := by
  intro c f m size
  refine ⟨.inl rfl, fun v _ => ?_⟩
  show Ends _ _ (ite _ _ _) _
  split
  · exact (prices_constGasFunc sstoreSetGas c f m size).imp fun r hr =>
      hr.mono fun _ => (by decide : sstoreResetGas ≤ sstoreSetGas)
  · split
    · refine ⟨.inr ⟨_, rfl⟩, fun _ _ => ?_⟩
      exact prices_constGasFunc sstoreClearGas c f m size
    · exact prices_constGasFunc sstoreResetGas c f m size

theorem prices_gasSuicide : Prices ReadsOrRefunds (fun _ _ => 0) gasSuicide := by
  intro c f m size
  refine ⟨.inl rfl, fun v _ => ?_⟩
  show Ends _ _ (ite _ _ _) _
  split
  · exact prices_constGasFunc 0 c f m size
  · exact ⟨.inr ⟨_, rfl⟩, fun _ _ => prices_constGasFunc 0 c f m size⟩

end Prices

/-! ## Instructions that run other code -/

/-- The rule for calls: the gas that comes back is added to what is left. -/
theorem ends_opCalls {kind : CallKind} {addr value : Int}
    (hP : ∀ args, P (.call kind (Word.toAddress addr) args (m.passed value) value.toNat))
    (hQ : ∀ args r, R (.call kind (Word.toAddress addr) args (m.passed value) value.toNat) r →
      (r.err = some .unfinished → Q (.error .unfinished)) ∧
        ∀ m' ret, m'.gas = u64 ((m.gas : Int) + r.gas) → Q (.ok (m', ret))) :
    (opCalls kind addr value m).Ends P R Q := by
  refine ends_pop fun _ _ _ => ends_pop fun _ _ _ => ends_pop fun _ _ _ => ends_pop fun _ _ _ => ?_
  refine ends_orFail fun args => ⟨hP args, fun r hr => ?_⟩
  obtain ⟨hunfinished, hok⟩ := hQ args r hr
  show Ends P R (ite _ _ _) Q
  split
  · rename_i herr
    exact hunfinished herr
  · exact ends_orFail fun memory => hok _ _ rfl

theorem ends_opCreate {c : Context} {f : Frame}
    (hP : ∀ code, P (.create code m.gas (m.back 0).toNat))
    (hQ : ∀ code x, R (.create code m.gas (m.back 0).toNat) x →
      (x.2.err = some .unfinished → Q (.error .unfinished)) ∧
        ∀ m' ret, m'.gas = x.2.gas → Q (.ok (m', ret))) :
    (opCreate c f m).Ends P R Q := by
  refine ends_pop fun s value hs => ends_pop fun _ _ _ => ends_pop fun _ _ _ => ?_
  have hback : m.back 0 = value := by unfold back; rw [hs]; rfl
  rw [hback] at hP hQ
  refine ends_orFail fun code => ⟨hP code, fun x hx => ?_⟩
  obtain ⟨hunfinished, hok⟩ := hQ code x hx
  show Ends P R (ite _ _ _) Q
  split
  · rename_i herr
    exact hunfinished herr
  · exact hok _ _ rfl

/-! ## Rounds -/

section Round

variable {low : Nat → Nat} {c : Context} {f : Frame} {op : UInt8} {o : Operation}

theorem mem_instructionSet (h : operationOf op = some o) : (op.toNat, o) ∈ instructionSet := by
  obtain ⟨⟨n, o'⟩, hfind, ho⟩ := map_eq_some_iff.1 h
  have hmem := mem_of_find?_eq_some hfind
  have hn : (n == op.toNat) = true := find?_some (p := fun e : Nat × Operation => e.1 == op.toNat) hfind
  have ho : o' = o := ho
  rwa [eq_of_beq hn, ho] at hmem

theorem forall_instructionSet {p : Nat × Operation → Prop} (hplain : ∀ e ∈ plainOperations, p e)
    (hpriced : ∀ e ∈ pricedOperations, p e) (hhalting : ∀ e ∈ haltingOperations, p e)
    (hwriting : ∀ e ∈ writingOperations, p e) (hcalling : ∀ e ∈ callingOperations, p e) :
    ∀ e ∈ instructionSet, p e :=
  forall_mem_append.2 ⟨forall_mem_append.2 ⟨forall_mem_append.2
    ⟨forall_mem_append.2 ⟨hplain, hpriced⟩, hhalting⟩, hwriting⟩, hcalling⟩

/-- The gas function of an instruction that is not marked as writing only reads. -/
def GasAsks (o : Operation) (e : Effect) : Prop :=
  ReadsOrRefunds e ∧ (o.writes = false → e = .read)

theorem prices_instructionSet :
    ∀ e ∈ instructionSet, ∃ low, Prices (GasAsks e.2) low e.2.gasCost := by
  refine forall_instructionSet (fun e he => ?_) ?_ ?_ ?_ ?_
  · obtain ⟨gas, -, hgas⟩ := gasCost_plain e he
    rw [hgas]
    exact ⟨_, prices_constGasFunc gas⟩
  · simp only [pricedOperations, ← forall_iff_forall_mem, Forall]
    exact ⟨⟨_, prices_gasExp⟩, ⟨_, prices_gasMemoryWords _ _ _⟩, ⟨_, prices_table GasTable.balance⟩,
      ⟨_, prices_gasMemoryWords _ _ _⟩, ⟨_, prices_gasMemoryWords _ _ _⟩,
      ⟨_, prices_table GasTable.extcodeSize⟩,
      ⟨fun t _ => t.extcodeCopy, fun c f m size => prices_gasMemoryWords _ _ _ c f m size⟩,
      ⟨_, prices_gasMemoryWords _ _ _⟩, ⟨_, prices_gasMemory _⟩, ⟨_, prices_gasMemory _⟩,
      ⟨_, prices_gasMemory _⟩, ⟨_, prices_table GasTable.sLoad⟩, ⟨_, prices_constGasFunc _⟩⟩
  · simp only [haltingOperations, ← forall_iff_forall_mem, Forall]
    refine ⟨⟨_, prices_constGasFunc 0⟩, ⟨_, prices_memoryGasCost⟩, ⟨_, prices_memoryGasCost⟩,
      fun _ _ => 0, ?_⟩
    exact fun c f m size => (prices_gasSuicide c f m size).mono
      (fun e he => ⟨he, fun h => by cases h⟩) (fun _ _ _ h => h) fun _ h => h
  · refine forall_mem_append.2 ⟨?_, forall_mem_map.2 fun i _ => ⟨_, prices_makeGasLog i⟩⟩
    simp only [← forall_iff_forall_mem, Forall]
    refine ⟨⟨fun _ _ => sstoreResetGas, fun c f m size => ?_⟩, ⟨_, prices_gasTransferAsset⟩,
      ⟨_, prices_gasTransferAsset⟩⟩
    exact (prices_gasSStore c f m size).mono (fun e he => ⟨he, fun h => by cases h⟩)
      (fun _ _ _ h => h) fun _ h => h
  · simp only [callingOperations, ← forall_iff_forall_mem, Forall]
    refine ⟨⟨_, prices_gasMemory _⟩, ⟨callPrice, fun c f m size => ?_⟩, ⟨_, prices_gasCallCode⟩,
      ⟨_, prices_gasDelegateCall⟩, ⟨_, prices_gasDelegateCall⟩⟩
    exact (prices_gasCall c f m size).mono (fun e he => ⟨.inl he, fun _ => he⟩) (fun _ _ _ h => h)
      fun _ h => h

def chargeErrors : List VMErr :=
  [.stackUnderflow, .stackLimit, .writeProtection, .gasUintOverflow, .outOfGas]

/-- What an instruction is charged: it is not restricted, and the price is at least `low`. -/
structure Paid (c : Context) (f : Frame) (o : Operation) (low : Nat → Nat) (m paid : Machine) :
    Prop where
  gas : paid.gas + low paid.callGasTemp ≤ m.gas
  stack : paid.stack = m.stack
  free : isRestricted c f (f.getOp m.pc) o m = false

def Charged (c : Context) (f : Frame) (o : Operation) (low : Nat → Nat) (m : Machine) :
    Except VMErr Machine → Prop
  | .error e => e ∈ chargeErrors
  | .ok paid => Paid c f o low m paid

theorem ends_charge (hprice : isRestricted c f (f.getOp m.pc) o m = false →
      ∀ size, (o.gasCost c f m size).Ends P (fun _ _ => True) (Priced low m)) :
    (charge c f o m).Ends P (fun _ _ => True) (Charged c f o low m) := by
  have herror : ∀ e ∈ chargeErrors,
      Ends P (fun _ _ => True) (pure (.error e) : Code _) (Charged c f o low m) :=
        fun e he => ends_pure he
  unfold charge
  split
  · exact herror _ (by decide)
  split
  · exact herror _ (by decide)
  split
  · exact herror _ (by decide)
  rename_i hfree
  have hfree := Bool.eq_false_iff.2 hfree
  split
  · exact herror _ (by decide)
  rename_i size _
  refine ends_bind (hprice hfree size) fun r hr => ?_
  cases r with
  | none => exact herror _ (by decide)
  | some x =>
    obtain ⟨hgas, hstack, hlow⟩ := hr x.1 x.2 rfl
    dsimp only
    split
    · exact herror _ (by decide)
    · refine ends_pure ⟨?_, hstack, hfree⟩
      dsimp only
      omega

/-- The rule for `perform`, by what the instruction makes of the loop. -/
theorem ends_perform {Q' : Outcome → Prop} (hx : (o.execute c f m).Ends P R Q)
    (herror : ∀ e, Q (.error e) → Q' (.halt ⟨[], m.gas, some e⟩))
    (hhalt : ∀ m' ret, Q (.ok (m', ret)) →
      Q' (.halt ⟨ret, m'.gas, none⟩) ∧ Q' (.halt ⟨ret, m'.gas, some .executionReverted⟩))
    (hnext : ∀ m' ret m'', Q (.ok (m', ret)) → m''.gas = m'.gas → (o.halts || o.reverts) = false →
      Q' (.next m'')) :
    (perform c f o m).Ends P R Q' := by
  refine ends_bind hx fun r hr => ?_
  cases r with
  | error e => exact ends_pure (herror e hr)
  | ok x =>
    obtain ⟨m', ret⟩ := x
    have hgas : (if o.returns then { m' with returnData := ret } else m').gas = m'.gas := by
      split <;> rfl
    dsimp only
    cases hrev : o.reverts with
    | true =>
      rw [if_pos rfl, hgas]
      exact ends_pure (hhalt m' ret hr).2
    | false =>
      cases hh : o.halts with
      | true =>
        rw [if_pos rfl, hgas]
        exact ends_pure (hhalt m' ret hr).1
      | false =>
        refine ends_pure (hnext m' ret _ hr ?_ (by rw [hrev, hh]; rfl))
        split <;> exact hgas

end Round

end GoAoa.VM
