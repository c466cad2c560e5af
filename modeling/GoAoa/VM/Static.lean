import GoAoa.VM.Atomic
import GoAoa.VM.Effects

/-!
# Static calls

In a frame that is read only the instructions that write are refused, and so are calls with a
value. The asset instructions are not marked as writing. So a static call leaves everything as it
was as long as they move nothing: the amount is zero, the contract pays itself, or there is not
enough of the asset.
-/

namespace GoAoa.VM

open List Option Machine State State.StateDB Semantics Prog

/-! ## What read-only code asks for -/

/-- The effects that the restrictions let through. -/
def Allowed : Effect → Prop
  | .read => True
  | .transferAsset .. => True
  | .call kind _ _ _ value => kind = .call → value = 0
  | _ => False

variable {c : Context} {f : Frame}

section Instructions

variable {m : Machine}

theorem Local.allowed {x : ExecutionFunc} (h : Local x) :
    (x c f m).Ends Allowed (fun _ _ => True) fun _ => True :=
  (h c f m).mono (fun _ he => by rw [he]; trivial) (fun _ _ _ h => h) fun _ _ => trivial

theorem allowed_opCalls {kind : CallKind} {addr value : Int} (h : kind = .call → value = 0) :
    (opCalls kind addr value m).Ends Allowed (fun _ _ => True) fun _ => True := by
  refine ends_opCalls (fun _ hk => ?_) fun _ _ _ => ⟨fun _ => trivial, fun _ _ _ => trivial⟩
  rw [h hk]
  rfl

/-- **An instruction that is let through asks only for allowed effects.** -/
theorem allowed_instructionSet : ∀ e ∈ instructionSet, e.2.writes = false → ∀ c f m,
    (e.1 = 0xf1 → m.back 2 = 0) →
      (e.2.execute c f m).Ends Allowed (fun _ _ => True) fun _ => True := by
  refine forall_instructionSet (fun e he _ c f m _ => (local_plain e he).allowed)
    (fun e he _ c f m _ => (local_priced e he).allowed) ?_ ?_ ?_
  · simp only [haltingOperations, ← forall_iff_forall_mem, Forall]
    exact ⟨fun _ c f m _ => local_opStop.allowed (c := c) (f := f),
      fun _ c f m _ => local_opReturn.allowed, fun _ c f m _ => local_opReturn.allowed, by simp⟩
  · refine forall_mem_append.2 ⟨?_, forall_mem_map.2 fun i _ h => by cases h⟩
    have htransfer : ∀ c f m,
        (opTransferAsset c f m).Ends Allowed (fun _ _ => True) fun _ => True := fun c f m =>
      (ends_opTransferAsset c f m).mono (by rintro _ ⟨r, a, rfl⟩; trivial) (fun _ _ _ h => h)
        fun _ _ => trivial
    simp only [← forall_iff_forall_mem, Forall]
    exact ⟨by simp, fun _ c f m _ => htransfer c f m, fun _ c f m _ => htransfer c f m⟩
  · simp only [callingOperations, ← forall_iff_forall_mem, Forall]
    refine ⟨by simp, fun _ c f m hvalue => ?_, fun _ c f m _ => ?_, fun _ c f m _ => ?_,
      fun _ c f m _ => ?_⟩
    · refine ends_pop fun s0 _ h0 => ends_pop fun s1 _ h1 => ends_pop fun s2 value h2 => ?_
      refine allowed_opCalls fun _ => ?_
      have h1 : s0 = _ :: s1 := h1
      have h2 : s1 = value :: s2 := h2
      have hback : m.back 2 = value := by unfold back; rw [h0, h1, h2]; rfl
      rw [← hback, hvalue trivial]
      rfl
    · exact ends_pop fun _ _ _ => ends_pop fun _ _ _ => ends_pop fun _ _ _ => allowed_opCalls (by simp)
    · exact ends_pop fun _ _ _ => ends_pop fun _ _ _ => allowed_opCalls (by simp)
    · exact ends_pop fun _ _ _ => ends_pop fun _ _ _ => allowed_opCalls (by simp)

theorem allowed_step (hb : c.isByzantium = true) (hr : f.readOnly = true) (m : Machine) :
    (step c f m).Ends Allowed (fun _ _ => True) fun _ => True := by
  unfold step
  cases hop : operationOf (f.getOp m.pc) with
  | none => exact trivial
  | some o =>
    have hmem := mem_instructionSet hop
    have hfree : isRestricted c f (f.getOp m.pc) o m = false →
        o.writes = false ∧ (f.getOp m.pc = 0xf1 → m.back 2 = 0) := by
      unfold isRestricted
      rw [hb, hr]
      simp only [Bool.true_and, Bool.or_eq_false_iff, Bool.and_eq_false_imp, beq_iff_eq,
        bne_eq_false_iff_eq]
      exact id
    obtain ⟨low, hprice⟩ := prices_instructionSet _ hmem
    refine ends_bind (Q := Charged c f o (low c.gasTable) m) (ends_charge fun hnot size => ?_)
      fun r hcharged => ?_
    · exact (hprice c f m size).mono (fun e he => by rw [he.2 (hfree hnot).1]; trivial)
        (fun _ _ _ h => h) fun _ h => h
    · cases r with
      | error => exact trivial
      | ok paid =>
        have hpaid := hcharged
        obtain ⟨hwrites, hvalue⟩ := hfree hpaid.free
        have hback : paid.back 2 = m.back 2 := by unfold back; rw [hpaid.stack]
        refine ends_perform (allowed_instructionSet _ hmem hwrites c f paid fun hcode => ?_)
          (fun _ _ => trivial) (fun _ _ _ => ⟨trivial, trivial⟩) fun _ _ _ _ _ _ => trivial
        rw [hback]
        exact hvalue (UInt8.toNat_inj.1 hcode)

/-- **Bytecode in a read-only frame asks only for allowed effects.** -/
theorem allowed_interpret (hb : c.isByzantium = true) (hr : f.readOnly = true) (fuel : Nat) :
    (interpret c fuel f).Ends Allowed (fun _ _ => True) fun _ => True := by
  unfold interpret
  generalize start f = m
  induction fuel generalizing m with
  | zero => trivial
  | succ fuel ih =>
    refine ends_bind (allowed_step hb hr m) fun r _ => ?_
    cases r with
    | halt => trivial
    | next m => exact ih m

end Instructions

/-! ## What is left of an allowed effect -/

/-- All accounts read the same, and the logs are the same. -/
structure Unwritten (s t : StateDB) : Prop where
  reading : ∀ a, SameReading (reading s a) (reading t a)
  logs : t.logs = s.logs

section Unwritten

variable {s t u : StateDB} {a : Address}

theorem Unwritten.refl (s : StateDB) : Unwritten s s := ⟨fun _ => .refl _, rfl⟩

theorem Unwritten.trans (h : Unwritten s t) (h' : Unwritten t u) : Unwritten s u :=
  ⟨fun a => (h.reading a).trans (h'.reading a), h'.logs.trans h.logs⟩

theorem unwritten_of_alike (h : Alike .byBalance s t) : Unwritten s t :=
  ⟨sameReading_of_alike h, h.logs⟩

theorem logs_edit (db : StateDB) (a : Address) (f : Writer) : (db.edit a f).logs = db.logs := by
  have hget : (db.getOrNewStateObject a).1.logs = db.logs := by
    rcases getOrNew_cases db a with ⟨-, heq⟩ | ⟨-, -, heq⟩ <;> rw [heq]
    rfl
  unfold edit
  dsimp only
  cases f (db.getOrNewStateObject a).2 <;> exact hget

theorem unwritten_edit {f : Writer} (hf : ∀ w, f (s.getOrNewStateObject a).2 = some w →
      SameReading (s.getOrNewStateObject a).2.data (w.apply (s.getOrNewStateObject a).2).data) :
    Unwritten s (s.edit a f) :=
  ⟨fun b => reading_edit_rel s a b .refl hf, logs_edit s a f⟩

theorem unwritten_createAccount (db : StateDB) (a : Address) (h : ¬ (view db).exist a = true) :
    Unwritten db (db.createAccount a) :=
  ⟨fun b => reading_createAccount db a b h ▸ .refl _, rfl⟩

theorem reading_addAssetBalance (db : StateDB) (a b asset : Address) (amount : Int) :
    reading (db.addAssetBalance a asset amount) b =
      if b = a then
        { reading db a with assetList := (reading db a).assetList.addAsset ⟨asset, amount⟩ }
      else reading db b := by
  unfold StateDB.addAssetBalance
  rw [reading_edit, ← reading_getOrNew db a]
  rfl

/-- If there is not enough nothing happens. -/
theorem reading_subAssetBalance (db : StateDB) (a b asset : Address) (amount : Int) :
    reading (db.subAssetBalance a asset amount).2 b =
      if b = a then
        { reading db a with assetList := (reading db a).assetList.subtract ⟨asset, amount⟩ }
      else reading db b := by
  unfold StateDB.subAssetBalance
  rw [reading_edit, ← reading_getOrNew db a]
  unfold edited Assets.subtract
  dsimp only
  by_cases hsome : ((db.getOrNewStateObject a).2.data.assetList.subAsset ⟨asset, amount⟩).isSome = true
  · rw [if_pos hsome]
    rfl
  · rw [if_neg hsome, not_isSome_iff_eq_none.1 hsome]
    rfl

/-- An asset transfer of nothing, or of an account to itself, leaves everything. -/
theorem unwritten_transferAsset {g : Growth} {recipient asset : Address} {value : Nat}
    (hvalue : value = 0 ∨ recipient = a)
    (h : (semantics g true).run (transfer a recipient (some asset) value) s = some ((), t)) :
    Unwritten s t := by
  have hassets : ∀ (d : Account) (l : Assets), (∀ id, l.balanceOf id = d.assetList.balanceOf id) →
      SameReading d { d with assetList := l } := fun d l hl =>
    ⟨rfl, rfl, rfl, rfl, rfl, rfl, hl⟩
  have h : (semantics g true).run (ite ((s.subAssetBalance a asset value).1 = true) _ _)
    (s.subAssetBalance a asset value).2 = some ((), t) := h
  have hsub : value = 0 → Unwritten s (s.subAssetBalance a asset value).2 := by
    rintro rfl
    unfold StateDB.subAssetBalance
    dsimp only
    refine unwritten_edit fun w hw => ?_
    split at hw <;> cases hw
    refine hassets _ _ fun id => (Assets.balanceOf_subtract (Int.le_refl _) id).trans ?_
    split <;> exact Int.sub_zero _
  by_cases hok : (s.subAssetBalance a asset value).1 = true
  swap
  · -- there is no entry to take from
    rw [if_neg hok] at h
    cases h
    unfold StateDB.subAssetBalance
    dsimp only
    refine unwritten_edit fun w hw => ?_
    cases (if_neg hok).symm.trans hw
  rw [if_pos hok, run_call] at h
  cases h
  rcases hvalue with hzero | rfl
  · refine (hsub hzero).trans (unwritten_edit fun w hw => ?_)
    cases hw
    refine hassets _ _ fun id => ?_
    rw [Assets.balanceOf_addAsset, hzero]
    split <;> exact Int.add_zero _
  · refine ⟨fun b => ?_, (logs_edit _ _ _).trans (logs_edit _ _ _)⟩
    rw [reading_addAssetBalance, reading_subAssetBalance, reading_subAssetBalance, if_pos rfl]
    split
    · rename_i hb
      rw [hb]
      refine hassets _ _ fun id => ?_
      obtain ⟨l, hl⟩ := isSome_iff_exists.1 (show ((reading s recipient).assetList.subAsset
        ⟨asset, value⟩).isSome = true by rw [← reading_getOrNew]; exact hok)
      unfold Assets.subtract
      rw [hl]
      exact congrArg (·.balanceOf id) (Assets.addAsset_subAsset hl)
    · exact .refl _

end Unwritten

/-! ## Frames that are read only -/

/-- The answers of effects in a frame, but for an asset transfer that moves something. -/
def harmless (f : Frame) : (e : Effect) → Effect.Ans e → Bool
  | .transferAsset recipient _ value, ok => value == 0 || recipient == f.self || !ok
  | _, _ => true

/-- `Run`, if the asset instructions move nothing. -/
def interpretHarmless (c : Context) (fuel : Nat) (f : Frame) : Code Reply :=
  (interpret c fuel f).assume (harmless f)

/-- Nothing is written, and what is done can be taken back. -/
def Spares (s t : StateDB) : Prop := Unwritten s t ∧ Undoable .byBalance s t

section Machine

variable {g : Growth} {E : EVM} {fuel : Nat} {n : Nested} {α : Type}

/-- What happens in a scope leaves everything, also if it is taken back. -/
theorem keeps_spares (g : Growth) : (semantics g true).Keeps (fun _ _ => False) Sane Spares where
  refl s := ⟨.refl s, .refl _ s⟩
  trans h h' := ⟨h.1.trans h'.1, h.2.trans h'.2⟩
  exec _ hg _ := hg.elim
  snapshot h := ⟨⟨h.grounded, h.owes⟩, ⟨fun _ => .refl _, rfl⟩, [], .snapshot _,
      .nil (.of_shown rfl (fun _ => rfl) rfl rfl)⟩
  revert h _ hE hr :=
    have hback := hE.2.revert hr
    ⟨h.of_alike hback.1, unwritten_of_alike hback.1, hback.2⟩

/-- The program leaves everything. -/
abbrev Inert (g : Growth) (p : M α) : Prop :=
  (semantics g true).Preserves Sane Spares p fun _ => True

theorem inert_pure (a : α) : Inert g (pure a) := (keeps_spares g).preserves_pure trivial

theorem Inert.bind {β : Type} {p : M α} {k : α → M β} (hp : Inert g p) (hk : ∀ a, Inert g (k a)) :
    Inert g (p >>= k) :=
  (keeps_spares g).preserves_bind hp fun a _ => hk a

theorem inert_view : Inert g (act .view) := by
  intro s x t hs hr
  cases hr
  exact ⟨⟨hs, (keeps_spares g).refl s⟩, trivial⟩

theorem spares_edit {s : StateDB} {a : Address} {k : Writer} (hs : Sane s)
    (hk : ∀ o w, k o = some w → w = .touch) : Sane (s.edit a k) ∧ Spares s (s.edit a k) := by
  refine ⟨⟨hs.grounded.edit k, hs.owes.edit fun o w hw hold => ?_⟩, unwritten_edit fun w hw => ?_,
    undoable_edit hs.grounded fun w hw => ?_⟩
  · rw [hk o w hw]; exact hold
  · rw [hk _ w hw]; exact .refl _
  · rw [hk _ w hw]; trivial

theorem inert_transfer (sender recipient : Address) : Inert g (transfer sender recipient none 0) := by
  refine Inert.bind (p := act (.subBalance sender 0)) ?_ fun _ => ?_
  · intro s x t hs hr
    rw [run_call] at hr
    cases hr
    refine ⟨spares_edit hs fun o w hw => ?_, trivial⟩
    cases hw
  · intro s x t hs hr
    rw [run_call] at hr
    cases hr
    refine ⟨spares_edit hs fun o w hw => ?_, trivial⟩
    rw [if_pos rfl] at hw
    split at hw
    · cases hw; rfl
    · cases hw

/-- What the machine below does in a frame that is read only. -/
def Nested.Static (n : Nested) (g : Growth) : Prop :=
  ∀ kind f addr input gas value, f.readOnly = true → (kind = .call → value = 0) →
    Inert g (n.call kind f addr input gas value)

/-- **An allowed effect leaves everything** if it is harmless. -/
theorem spares_runEffect (hn : n.Static g) (hr : f.readOnly = true) {e : Effect} (he : Allowed e)
    {s t : StateDB} {x : Effect.Ans e} (hs : Sane s)
    (h : (semantics g true).run (runEffect n f e) s = some (x, t)) (hok : harmless f e x = true) :
    Sane t ∧ Spares s t := by
  cases e with
  | read => exact (inert_view s x t hs h).1
  | call kind addr input gas value => exact (hn kind f addr input gas value hr he s x t hs h).1
  | transferAsset recipient asset value =>
    have h := h
    have h : (semantics g true).run (ite ((view s).canTransfer f.self (some asset) value = true) _ _) s =
      some (x, t) := h
    split at h
    · obtain ⟨u, t1, htr, heq⟩ := of_run_bind h
      cases heq
      have hmoves : value = 0 ∨ recipient = f.self := by
        simpa [harmless] using hok
      have hbal : some asset = none → (value : Int) ≤ (view s).getBalance f.self := nofun
      have hsteps := steps_transfer (W := KeepsLists g) (protected_none s) hbal htr
      obtain ⟨hsane, hund⟩ := (keeps_sane g _).steps hsteps hs
      exact ⟨hsane, unwritten_transferAsset hmoves htr, hund⟩
    · cases h
      exact ⟨hs, (keeps_spares g).refl s⟩
  | _ => exact he.elim

theorem inert_run (hb : c.isByzantium = true) (hn : n.Static g) (hr : f.readOnly = true) :
    Inert g (run (E.running (interpretHarmless c fuel)) n f) := by
  unfold run
  split
  · exact inert_pure _
  · split
    · exact inert_pure _
    · refine (keeps_spares g).preserves_handle
        (fun e he s x t hs h hok => spares_runEffect hn hr he hs h hok) ?_
      exact (allowed_interpret hb hr fuel).mono (fun _ h => h) (fun _ _ _ _ => trivial) fun _ h => h

theorem inert_invoke (hb : c.isByzantium = true) (hn : n.Static g) (hr : f.readOnly = true) :
    Inert g (invoke (E.running (interpretHarmless c fuel)) n f) :=
  inert_view.bind fun v => (inert_run (f := { f with code := v.getCode f.codeAddr }) hb hn hr).bind
    fun _ => inert_pure _

theorem inert_within {body : M (Bool × α)} (h : Inert g body) : Inert g (.within body) :=
  (keeps_spares g).preserves_within h

theorem inert_opening {args : CallArgs} (hact : args.action = .trans) (hvalue : args.value = 0)
    (hasset : args.asset = none) : Inert g (opening E args) := by
  have hprologue : Inert g (prologue E args) := by
    unfold prologue
    rw [hact]
    rw [hasset, hvalue]
    exact (inert_transfer _ _).bind fun _ => inert_pure _
  intro s x t hs h
  have h : (semantics g true).run (ite ((view s).exist args.addr = true) _ _) s = some (x, t) := h
  split at h
  · exact hprologue s x t hs h
  · rename_i hexist
    split at h
    · exact inert_pure _ s x t hs h
    · rw [run_bind, run_call] at h
      obtain ⟨⟨hsane', hleaves⟩, -⟩ :=
        hprologue (s.createAccount args.addr) x t (hs.createAccount args.addr) h
      exact ⟨⟨hsane', (keeps_spares g).trans ⟨unwritten_createAccount s args.addr hexist,
        undoable_made hs.grounded _⟩ hleaves⟩, trivial⟩

theorem inert_call {args : CallArgs} (hb : c.isByzantium = true) (hn : n.Static g)
    (hr : args.readOnly = true) (hact : args.action = .trans) (hvalue : args.value = 0)
    (hasset : args.asset = none) : Inert g (call (E.running (interpretHarmless c fuel)) n args) := by
  rw [call_eq]
  refine inert_view.bind fun v => ?_
  split
  · refine inert_within ((inert_opening hact hvalue hasset).bind fun x => ?_)
    cases x with
    | some => exact inert_pure _
    | none => exact inert_invoke hb hn hr
  · exact inert_pure _

/-- **Code below a frame that is read only leaves everything**, at every depth. -/
theorem static_nested (hb : c.isByzantium = true) (d : Nat) :
    (nested (E.running (interpretHarmless c fuel)) d).Static g := by
  induction d with
  | zero => exact fun _ _ _ _ _ _ _ _ => inert_pure _
  | succ d ih =>
    intro kind f addr input gas value hr hvalue
    cases kind with
    | call => exact inert_call hb ih hr rfl (hvalue rfl) rfl
    | callCode =>
      refine inert_view.bind fun v => ?_
      split
      · exact inert_within (inert_invoke hb ih hr)
      · exact inert_pure _
    | delegateCall => exact inert_within (inert_invoke hb ih hr)
    | staticCall => exact inert_within (inert_invoke hb ih rfl)

/-- **A static call leaves everything** in every run whose asset instructions move nothing. Such a
run is a run of the machine. -/
theorem staticCall_unwritten {d : Nat} {addr : Address} {input : Bytes} {gas : Nat} {r : Reply}
    {db db' : StateDB} (hb : c.isByzantium = true) (hs : Sane db)
    (h : (semantics g true).run (staticCall (E.running (interpretHarmless c fuel))
      (nested (E.running (interpretHarmless c fuel)) d) f addr input gas) db = some (r, db')) :
    (semantics g true).run (staticCall (E.running (interpret c fuel))
      (nested (E.running (interpret c fuel)) d) f addr input gas) db = some (r, db') ∧
        Unwritten db db' := by
  have hcut : ∀ f, Cuts (interpretHarmless c fuel f) ((E.running (interpret c fuel)).interp f) :=
    fun f => .assume _ _
  refine ⟨run_cut (Cuts.within (cut_invoke hcut (cut_nested hcut d))) h, ?_⟩
  exact (inert_within (inert_invoke hb (static_nested hb d) rfl) db r db' hs h).1.2.1

end Machine

/-! ## A static call that pays -/

def payingCode (amount : UInt8) : Bytes := [0x60, 2, 0x60, 7, 0x60, amount, 0xe1, 0]

def assetTrie (code : Bytes) : Trie :=
  fun a => if a = 6 then some { plainAccount 1 0 with
      code := code, assetList := ⟨[⟨7, 10⟩], by decide⟩
      nonneg := fun x hx => by rw [List.mem_singleton.1 hx]; decide } else none

theorem staticCall_unwritten_zero :
    ∃ r db', (semantics doubling true).run (staticCall (smallEvm.running (interpret bytecodeContext 100))
        (nested (smallEvm.running (interpret bytecodeContext 100)) 3) (smallFrame []) 6 [] 50000)
        (.new (assetTrie (payingCode 0))) = some (r, db') ∧
      r.err = none ∧ Unwritten (.new (assetTrie (payingCode 0))) db' := by
  have hrun : ((semantics doubling true).run
      (staticCall (smallEvm.running (interpretHarmless bytecodeContext 100))
        (nested (smallEvm.running (interpretHarmless bytecodeContext 100)) 3) (smallFrame []) 6 []
        50000) (.new (assetTrie (payingCode 0)))).map (·.1.err) = some none := by decide +kernel
  obtain ⟨⟨r, db'⟩, hr, herr⟩ := map_eq_some_iff.1 hrun
  obtain ⟨hreal, hunwritten⟩ := staticCall_unwritten rfl (sane_new _) hr
  exact ⟨r, db', hreal, herr, hunwritten⟩

/-- **A static call can pay with assets**: address 6 sends 3 of asset 7. -/
theorem not_staticCall_unwritten_asset :
    ∃ r db', (semantics doubling true).run (staticCall (smallEvm.running (interpret bytecodeContext 100))
        (nested (smallEvm.running (interpret bytecodeContext 100)) 3) (smallFrame []) 6 [] 50000)
        (.new (assetTrie (payingCode 3))) = some (r, db') ∧
      r.err = none ∧ (reading db' 2).assetList.balanceOf 7 = 3 ∧
      ¬ Unwritten (.new (assetTrie (payingCode 3))) db' := by
  have hbefore : (reading (.new (assetTrie (payingCode 3))) 2).assetList.balanceOf 7 = 0 := by
    decide +kernel
  refine exists₂_of_check (fun r db => r.err = none ∧ (reading db 2).assetList.balanceOf 7 = 3)
    (by decide +kernel) fun r db' _ ⟨herr, hafter⟩ => ⟨herr, hafter, fun hsame => ?_⟩
  have hkeep := (hsame.reading 2).assets 7
  rw [hafter, hbefore] at hkeep
  cases hkeep

end GoAoa.VM
