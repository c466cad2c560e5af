import GoAoa.VM.Cut
import GoAoa.VM.Effects

/-!
# Gas is used up

With the prices of the Epiphron block every instruction costs more than it can bring back from the
code it runs, but for `CALL` and `CALLCODE` with a value: the callee gets a stipend of 1000 that
nobody pays for, while sending a value costs 550. So what the callee does not use makes the
caller's gas grow. A run without such a call uses up gas with every instruction, and ends.
-/

namespace GoAoa.VM

open List Option State Semantics Prog

/-- No more gas is left than was given, and a frame that is followed long enough has ended. -/
def Fits (fuel gas : Nat) (r : Reply) : Prop :=
  r.gas ≤ gas ∧ (gas < fuel → r.err ≠ some .unfinished)

theorem bounded_fits (fuel : Nat) : Bounded (Fits fuel) where
  reply h he := ⟨h, fun _ => he⟩
  less h h' := ⟨Nat.le_trans h' h.1, h.2⟩
  error h he := ⟨h.1, fun _ heq => he (Option.some.inj heq)⟩

/-! ## What instructions leave -/

/-- At most so much gas is left, and the instruction has ended if `ended`. -/
def Leaves (bound : Nat) (ended : Prop) : Result → Prop
  | .ok (m, _) => m.gas ≤ bound
  | .error e => ended → e ≠ .unfinished

theorem leaves_of_kept {gas : Nat} {ended : Prop} {r : Result} (h : Kept gas r) :
    Leaves gas ended r := by
  cases r with
  | ok => exact Nat.le_of_eq h
  | error =>
    rintro - rfl
    rcases h with h | h <;> cases h

def sendsValue (op : Nat) : Bool := op == 0xf1 || op == 0xf2

/-- An instruction costs at least `low` of the gas set aside for a call, and brings back at most
`brought` of that and of the value. -/
structure Metered (c : Context) (fuel op : Nat) (o : Operation) (low : Nat → Nat)
    (brought : Nat → Int → Nat) : Prop where
  price : ∀ f m size, (o.gasCost c f m size).Ends (fun _ => True) (fun _ _ => True) (Priced low m)
  execute : ∀ f m, (o.execute c f m).Ends (fun _ => True) (Answers (Fits fuel))
    (Leaves (m.gas + brought m.callGasTemp (m.back 2))
      (m.gas + brought m.callGasTemp (m.back 2) < fuel))
  covers : ∀ temp value, ((o.halts || o.reverts) = true ∧ brought temp value = 0) ∨
    brought temp value < low temp ∨
    (sendsValue op ∧ value ≠ 0 ∧ brought temp value ≤ temp + callStipend)

variable {c : Context} {fuel : Nat} {o : Operation}

section Metered

variable {op : Nat} {e : Nat × Operation}

theorem Prices.ends {P : Effect → Prop} {low : GasTable → Nat → Nat} {x : GasFunc}
    (h : Prices P low x) (hc : c.gasTable = .epiphron) (f : Frame) (m : Machine) (size : Nat) :
    (x c f m size).Ends (fun _ => True) (fun _ _ => True) (Priced (low .epiphron) m) := by
  have h' := h c f m size
  rw [hc] at h'
  exact h'.mono (fun _ _ => trivial) (fun _ _ _ h => h) fun _ h => h

variable {P : Machine → Effect → Prop}

theorem Asks.leaves {x : ExecutionFunc} (h : Asks P x) (f : Frame) (m : Machine) :
    (x c f m).Ends (fun _ => True) (Answers (Fits fuel)) (Leaves m.gas (m.gas < fuel)) :=
  (h c f m).mono (fun _ _ => trivial) (fun _ _ _ _ => trivial) fun _ h => leaves_of_kept h

/-! ## Calls -/

theorem u64_le (x : Nat) : u64 x ≤ x := by
  unfold u64
  omega

/-- `Machine.passed` as a function of the gas set aside, for a value on the stack. -/
def passedOn (temp : Nat) (value : Int) : Nat :=
  if (Word.u256 value) = 0 then temp else u64 ((temp : Int) + callStipend)

/-- What the gas passed on to a callee that fits leaves. -/
theorem leaves_opCalls (kind : CallKind) (addr value : Int) (m : Machine) :
    (opCalls kind addr value m).Ends (fun _ => True) (Answers (Fits fuel))
      (Leaves (m.gas + m.passed value) (m.gas + m.passed value < fuel)) := by
  refine ends_opCalls (fun _ => trivial) fun args r hr => ?_
  refine ⟨fun herr hlt _ => hr.2 (by omega) herr, fun m' ret hgas => ?_⟩
  have hu := hgas ▸ u64_le (m.gas + r.gas)
  exact Nat.le_trans hu (Nat.add_le_add_left hr.1 _)

theorem leaves_value (kind : CallKind) (m : Machine) :
    (m.pop fun m _ => m.pop fun m addr => m.pop fun m value =>
      opCalls kind addr (Word.u256 value) m).Ends
      (fun _ => True) (Answers (Fits fuel)) (Leaves (m.gas + passedOn m.callGasTemp (m.back 2))
        (m.gas + passedOn m.callGasTemp (m.back 2) < fuel)) := by
  refine ends_pop fun s1 gas h1 => ends_pop fun s2 addr h2 => ends_pop fun s3 value h3 => ?_
  have h2 : s1 = addr :: s2 := h2
  have h3 : s2 = value :: s3 := h3
  have hback : m.back 2 = value := by unfold Machine.back; rw [h1, h2, h3]; rfl
  rw [hback]
  exact leaves_opCalls kind addr (Word.u256 value) (((m.withStack s1).withStack s2).withStack s3)

theorem leaves_noValue (kind : CallKind) (m : Machine) :
    (m.pop fun m _ => m.pop fun m addr => opCalls kind addr 0 m).Ends (fun _ => True)
      (Answers (Fits fuel)) (Leaves (m.gas + m.callGasTemp) (m.gas + m.callGasTemp < fuel)) :=
  ends_pop fun _ _ _ => ends_pop fun _ addr _ => leaves_opCalls kind addr 0 _

theorem leaves_opCreate (c : Context) (f : Frame) (m : Machine) :
    (opCreate c f m).Ends (fun _ => True) (Answers (Fits fuel)) (Leaves m.gas (m.gas < fuel)) := by
  refine ends_opCreate (fun _ => trivial) fun code x hx => ?_
  exact ⟨fun herr hlt _ => hx.2 hlt herr, fun m' ret hgas => Nat.le_trans (Nat.le_of_eq hgas) hx.1⟩

theorem lt_callPrice (temp : Nat) : temp < callPrice .epiphron temp :=
  Nat.lt_add_of_pos_left (by decide)

/-- The price of a call covers what is passed on, but not the stipend. -/
theorem passedOn_covers (temp : Nat) (value : Int) :
    passedOn temp value < callPrice .epiphron temp ∨
      value ≠ 0 ∧ passedOn temp value ≤ temp + callStipend := by
  unfold passedOn
  split
  · exact .inl (lt_callPrice temp)
  · rename_i hvalue
    exact .inr ⟨fun h => hvalue (by rw [h]; rfl), u64_le (temp + callStipend)⟩

/-! ## The groups of instructions -/

variable (hc : c.gasTable = .epiphron)
include hc

/-- An instruction that brings nothing back and costs something, or halts the frame. -/
theorem metered_asks {P' : Effect → Prop} {low : GasTable → Nat → Nat} (h : Asks P o.execute)
    (hp : Prices P' low o.gasCost)
    (hcovers : ∀ temp, (o.halts || o.reverts) = true ∨ 0 < low .epiphron temp) :
    ∃ low brought, Metered c fuel op o low brought :=
  ⟨low .epiphron, fun _ _ => 0, hp.ends hc, h.leaves,
    fun temp _ => (hcovers temp).imp (fun h => ⟨h, rfl⟩) .inl⟩

theorem metered_pays {P' : Effect → Prop} {low : GasTable → Nat} (h : Asks P o.execute)
    (hp : Prices P' (fun t _ => low t) o.gasCost) (hlow : 0 < low .epiphron) :
    ∃ low brought, Metered c fuel op o low brought :=
  metered_asks hc h hp fun _ => .inr hlow

theorem metered_plain (h : e ∈ plainOperations) :
    ∃ low brought, Metered c fuel e.1 e.2 low brought := by
  obtain ⟨gas, hpos, hgas⟩ := gasCost_plain e h
  have hprices : Prices (fun _ => True) (fun _ _ => gas) e.2.gasCost := by
    rw [hgas]
    exact prices_constGasFunc gas
  exact metered_pays hc (local_plain e h) hprices hpos

theorem metered_priced :
    ∀ e ∈ pricedOperations, ∃ low brought, Metered c fuel e.1 e.2 low brought := by
  have pays := @metered_pays c fuel
  have hl := local_priced
  simp only [pricedOperations, ← forall_iff_forall_mem, Forall] at hl ⊢
  obtain ⟨h1, h2, h3, h4, h5, h6, h7, h8, h9, h10, h11, h12, h13⟩ := hl
  have memory : ∀ {base}, Prices (fun _ => True) (fun _ _ => base) (gasMemory base) :=
    fun {base} => prices_gasMemory base
  have words : ∀ {base perWord back},
      Prices (fun _ => True) (fun _ _ => base) (gasMemoryWords base perWord back) :=
    fun {base perWord back} => prices_gasMemoryWords base perWord back
  have copy : Prices (fun _ => True) (fun t _ => GasTable.extcodeCopy t) gasExtCodeCopy :=
    fun c f m size => words c f m size
  exact ⟨pays hc h1 (prices_gasExp (P := fun _ => True)) (by decide), pays hc h2 words (by decide),
    pays hc h3 (prices_table (P := fun _ => True) GasTable.balance) (by decide),
    pays hc h4 words (by decide),
    pays hc h5 words (by decide),
    pays hc h6 (prices_table (P := fun _ => True) GasTable.extcodeSize) (by decide),
    pays hc h7 copy (by decide),
    pays hc h8 words (by decide),
    pays hc h9 memory (by decide),
    pays hc h10 memory (by decide),
    pays hc h11 memory (by decide),
    pays hc h12 (prices_table (P := fun _ => True) GasTable.sLoad) (by decide),
    pays hc h13 (prices_constGasFunc (P := fun _ => True) balanceOfGas) (by decide)⟩

theorem metered_halting :
    ∀ e ∈ haltingOperations, ∃ low brought, Metered c fuel e.1 e.2 low brought := by
  simp only [haltingOperations, ← forall_iff_forall_mem, Forall]
  have memory : Prices (fun _ => True) (fun _ _ => 0) fun _ _ m size => pure (memoryGasCost m size) :=
    prices_memoryGasCost
  exact ⟨metered_asks hc local_opStop (prices_constGasFunc (P := fun _ => True) 0) fun _ => .inl rfl,
    metered_asks hc local_opReturn memory fun _ => .inl rfl,
    metered_asks hc local_opReturn memory fun _ => .inl rfl,
    metered_asks hc asks_opSuicide prices_gasSuicide fun _ => .inl rfl⟩

theorem metered_opTransferAsset (hx : o.execute = opTransferAsset)
    (hg : o.gasCost = gasTransferAsset) : ∃ low brought, Metered c fuel op o low brought := by
  refine ⟨fun _ => transferAssetGas, fun _ _ => 0, fun f m size => ?_, fun f m => ?_,
    fun _ _ => .inr (.inl (by decide))⟩
  · rw [hg]
    exact (prices_gasTransferAsset (P := fun _ => True)).ends hc f m size
  · rw [hx]
    refine (ends_opTransferAsset c f m).mono (fun _ _ => trivial) (fun _ _ _ _ => trivial) ?_
    rintro r (h | rfl)
    · exact leaves_of_kept h
    · exact fun _ h => by cases h

theorem metered_writing :
    ∀ e ∈ writingOperations, ∃ low brought, Metered c fuel e.1 e.2 low brought := by
  refine forall_mem_append.2 ⟨?_, forall_mem_map.2 fun i _ => ?_⟩
  · simp only [← forall_iff_forall_mem, Forall]
    exact ⟨metered_pays hc asks_opSstore prices_gasSStore (by decide),
      metered_opTransferAsset hc rfl rfl, metered_opTransferAsset hc rfl rfl⟩
  · exact metered_pays hc (asks_makeLog i) (prices_makeGasLog (P := fun _ => True) i) (by decide)

theorem metered_calling :
    ∀ e ∈ callingOperations, ∃ low brought, Metered c fuel e.1 e.2 low brought := by
  simp only [callingOperations, ← forall_iff_forall_mem, Forall]
  have hcall := prices_gasCall.ends hc
  have hcode := (prices_gasCallCode (P := fun _ => True)).ends hc
  have hdelegate := (prices_gasDelegateCall (P := fun _ => True)).ends hc
  refine ⟨⟨fun _ => createGas, fun _ _ => 0, ?_, leaves_opCreate c,
      fun _ _ => .inr (.inl (by decide))⟩,
    ⟨_, passedOn, hcall, fun f m => leaves_value .call m, ?_⟩,
    ⟨_, passedOn, hcode, fun f m => leaves_value .callCode m, ?_⟩,
    ⟨_, fun temp _ => temp, hdelegate, fun f m => ?_,
      fun temp _ => .inr (.inl (lt_callPrice temp))⟩,
    ⟨_, fun temp _ => temp, hdelegate, fun f m => ?_,
      fun temp _ => .inr (.inl (lt_callPrice temp))⟩⟩
  · exact (prices_gasMemory (P := fun _ => True) createGas).ends hc
  · exact fun temp value => .inr ((passedOn_covers temp value).imp_right fun h => ⟨rfl, h⟩)
  · exact fun temp value => .inr ((passedOn_covers temp value).imp_right fun h => ⟨rfl, h⟩)
  · exact leaves_noValue .delegateCall m
  · exact leaves_noValue .staticCall m

/-- **Every instruction is metered.** -/
theorem metered_instructionSet (fuel : Nat) :
    ∀ e ∈ instructionSet, ∃ low brought, Metered c fuel e.1 e.2 low brought :=
  forall_instructionSet (fun _ h => metered_plain hc h) (metered_priced hc) (metered_halting hc)
    (metered_writing hc) (metered_calling hc)

end Metered

/-! ## Rounds -/

/-- The price of a call with a value, apart from the gas it passes on, is more than the stipend. -/
def paysStipend : Condition := fun f m paid =>
  !(sendsValue (f.getOp m.pc).toNat && m.back 2 != 0) ||
    decide (paid.callGasTemp + callStipend < m.gas - paid.gas)

/-- A round that goes on has used up gas, and one that halts fits. -/
def Decreases (fuel gas : Nat) : Outcome → Prop
  | .next m => m.gas < gas
  | .halt r => Fits fuel gas r

variable {f : Frame}

section Round

variable {m paid : Machine}
  {low : Nat → Nat} {brought : Nat → Int → Nat}

/-- An instruction that is paid for and meets the condition brings back less than it costs, or
halts the frame. -/
theorem brought_lt (ho : Metered c fuel (f.getOp m.pc).toNat o low brought)
    (hpaid : Paid c f o low m paid) (hok : paysStipend f m paid = true) :
    paid.gas + brought paid.callGasTemp (paid.back 2) ≤ m.gas ∧
      ((o.halts || o.reverts) = false → paid.gas + brought paid.callGasTemp (paid.back 2) < m.gas) := by
  have hgas := hpaid.gas
  have hback : paid.back 2 = m.back 2 := by unfold Machine.back; rw [hpaid.stack]
  rcases ho.covers paid.callGasTemp (paid.back 2) with ⟨h, hzero⟩ | h | ⟨hop, hvalue, hle⟩
  · exact ⟨by omega, fun h' => absurd (h.symm.trans h') (by decide)⟩
  · exact ⟨by omega, fun _ => by omega⟩
  · unfold paysStipend at hok
    rw [hback] at hvalue
    rw [hop, bne_iff_ne.2 hvalue] at hok
    have hlt := of_decide_eq_true hok
    exact ⟨by omega, fun _ => by omega⟩

theorem decreases_perform (ho : Metered c fuel (f.getOp m.pc).toNat o low brought)
    (hpaid : Paid c f o low m paid) (hok : paysStipend f m paid = true) :
    (perform c f o paid).Ends (fun _ => True) (Answers (Fits fuel)) (Decreases fuel m.gas) := by
  obtain ⟨hle, hlt⟩ := brought_lt ho hpaid hok
  refine ends_perform (ho.execute f paid) (fun e he => ⟨?_, fun hfuel heq => ?_⟩)
    (fun m' ret hm' => ?_) fun m' ret m'' hm' hgas hgo => ?_
  · show paid.gas ≤ m.gas
    omega
  · have he := he
    exact he (by omega) (some.inj heq)
  · have hm' := hm'
    exact ⟨⟨Nat.le_trans hm' hle, fun _ h => by cases h⟩, Nat.le_trans hm' hle,
      fun _ h => by cases h⟩
  · have hm' : m'.gas ≤ _ := hm'
    have hlt := hlt hgo
    show m''.gas < m.gas
    omega

variable (hc : c.gasTable = .epiphron)
include hc

theorem decreases_stepWhere (m : Machine) :
    (stepWhere paysStipend c f m).Ends (fun _ => True) (Answers (Fits fuel))
      (Decreases fuel m.gas) := by
  unfold stepWhere
  cases ho : operationOf (f.getOp m.pc) with
  | none => exact ends_pure ⟨Nat.le_refl _, fun _ h => by cases h⟩
  | some =>
    obtain ⟨low, brought, hm⟩ := metered_instructionSet hc fuel _ (mem_instructionSet ho)
    have hcharge := ends_charge fun _ size => hm.price f m size
    refine ends_bind (hcharge.mono (fun _ h => h) (fun _ _ _ _ => trivial) fun _ h => h) ?_
    intro r hr
    cases r with
    | error e =>
      refine ends_pure ⟨Nat.le_refl _, fun _ h => ?_⟩
      have hr : e ∈ chargeErrors := hr
      rw [some.inj h] at hr
      exact absurd hr (by decide)
    | ok =>
      dsimp only
      split
      · exact decreases_perform hm hr ‹_›
      · exact ends_fail

/-- **A run of a frame fits**: it leaves no more gas than there was, and it takes no more rounds
than there was gas. -/
theorem fits_loop (k : Nat) (m : Machine) :
    (loop (stepWhere paysStipend c f) k m).Ends (fun _ => True) (Answers (Fits fuel))
      fun r => r.gas ≤ m.gas ∧ (m.gas < k → m.gas < fuel → r.err ≠ some .unfinished) := by
  induction k generalizing m with
  | zero => exact ends_pure ⟨Nat.le_refl _, fun h => absurd h (Nat.not_lt_zero _)⟩
  | succ k ih =>
    refine ends_bind (decreases_stepWhere hc m) fun r hr => ?_
    cases r with
    | halt => exact ends_pure ⟨hr.1, fun _ h => hr.2 h⟩
    | next m' =>
      have hlt : m'.gas < m.gas := hr
      refine (ih m').imp fun r hr => ⟨by omega, fun hk hfuel => hr.2 (by omega) (by omega)⟩

theorem fits_interpretWhere (f : Frame) :
    (interpretWhere paysStipend c fuel f).Ends (fun _ => True) (Answers (Fits fuel))
      (Fits fuel f.gas) :=
  (fits_loop hc fuel (.start f)).imp fun _ h => ⟨h.1, fun hlt => h.2 hlt hlt⟩

end Round

/-! ## Runs -/

section Run

variable {g : Growth} {ep : Bool} {E : EVM} {d : Nat}

theorem returns_bytecodeWhere {α : Type} {Q : α → Prop} (hc : c.gasTable = .epiphron)
    {code : Code α} (h : code.Ends (fun _ => True) (Answers (Fits fuel)) Q) :
    (semantics g ep).Returns (bytecodeWhere paysStipend E c fuel d f code) Q := by
  refine returns_handle (fun e _ => ?_) h
  exact answers_nested (bounded_fits fuel) d (fits_interpretWhere hc) f e

/-- **Gas is used up.** In every run of a frame in which no call with a value costs less than the
stipend, at any depth: a round that goes on has less gas than before, and the frame leaves no more
gas than it was given and halts within as many rounds as it was given gas. -/
theorem gas_usedUp (E : EVM) (hc : c.gasTable = .epiphron) (d : Nat) (f : Frame)
    (db db' : StateDB) :
    (∀ m m', (semantics g ep).run
        (bytecodeWhere paysStipend E c fuel d f (stepWhere paysStipend c f m)) db
          = some (.next m', db') →
      (semantics g ep).run (bytecode E c fuel d f (step c f m)) db = some (.next m', db') ∧
        m'.gas < m.gas) ∧
    ∀ r, (semantics g ep).run
        (bytecodeWhere paysStipend E c fuel d f (interpretWhere paysStipend c fuel f)) db
          = some (r, db') →
      (semantics g ep).run (bytecode E c fuel d f (interpret c fuel f)) db = some (r, db') ∧
        r.gas ≤ f.gas ∧ (f.gas < fuel → r.err ≠ some .unfinished) := by
  refine ⟨fun m m' hr => ⟨run_bytecodeWhere (cut_stepWhere _ c f m) hr, ?_⟩,
    fun r hr => ⟨run_bytecodeWhere (cut_interpretWhere _ c fuel f) hr, ?_⟩⟩
  · exact returns_bytecodeWhere hc (decreases_stepWhere hc m) _ _ _ hr
  · exact returns_bytecodeWhere hc (fits_interpretWhere hc f) _ _ _ hr

end Run

/-! ## A call that earns gas -/

def stipendCode : Bytes :=
  [0x60, 0, 0x60, 0, 0x60, 0, 0x60, 0, 0x60, 1, 0x60, 2, 0x60, 0, 0xf2, 0]

def plainCallCode : Bytes :=
  [0x60, 0, 0x60, 0, 0x60, 0, 0x60, 0, 0x60, 0, 0x60, 2, 0x60, 0, 0xf2, 0]

def callingMachine : Machine := ⟨14, [0, 2, 0, 0, 0, 0, 0], .new, 1993, [], 0⟩

theorem gas_usedUp_plainCall :
    (∃ m' db', (semantics doubling true).run (bytecode smallEvm bytecodeContext 2001 1024
        (smallFrame plainCallCode) (step bytecodeContext (smallFrame plainCallCode) callingMachine))
        (.new (contractTrie plainCallCode)) = some (.next m', db') ∧
      m'.gas < callingMachine.gas) ∧
    ∃ r db', (semantics doubling true).run (bytecode smallEvm bytecodeContext 2001 1024
        (smallFrame plainCallCode) (interpret bytecodeContext 2001 (smallFrame plainCallCode)))
        (.new (contractTrie plainCallCode)) = some (r, db') ∧
      r.gas ≤ 2000 ∧ r.err ≠ some .unfinished := by
  have hstep : ((semantics doubling true).run (bytecodeWhere paysStipend smallEvm bytecodeContext 2001
      1024 (smallFrame plainCallCode)
      (stepWhere paysStipend bytecodeContext (smallFrame plainCallCode) callingMachine))
      (.new (contractTrie plainCallCode))).map (·.1) =
        some (.next ⟨15, [1], .new, 1948, [], 0⟩) := by decide +kernel
  have hrun : ((semantics doubling true).run (bytecodeWhere paysStipend smallEvm bytecodeContext 2001
      1024 (smallFrame plainCallCode)
      (interpretWhere paysStipend bytecodeContext 2001 (smallFrame plainCallCode)))
      (.new (contractTrie plainCallCode))).isSome = true := by decide +kernel
  obtain ⟨⟨o, db1⟩, h1, rfl⟩ := map_eq_some_iff.1 hstep
  obtain ⟨⟨r, db2⟩, h2⟩ := isSome_iff_exists.1 hrun
  obtain ⟨hreal1, hlt⟩ := (gas_usedUp smallEvm rfl 1024 _ _ db1).1 _ _ h1
  obtain ⟨hreal2, hle, hend⟩ := (gas_usedUp smallEvm rfl 1024 _ _ db2).2 r h2
  exact ⟨⟨_, db1, hreal1, hlt⟩, r, db2, hreal2, hle, hend (by decide)⟩

/-- **Gas can grow**: sending a value costs 550, and the stipend of 1000 comes back. -/
theorem not_gas_usedUp_stipend :
    ∃ r db', (semantics doubling true).run (bytecode smallEvm bytecodeContext 2001 1024
        (smallFrame stipendCode) (interpret bytecodeContext 2001 (smallFrame stipendCode)))
        (.new (contractTrie stipendCode)) = some (r, db') ∧
      (smallFrame stipendCode).gas < r.gas := by
  exact exists₂_of_check (fun r _ => _ < r.gas) (by decide +kernel) fun _ _ _ => id

end GoAoa.VM
