import GoAoa.VM.Guarded

/-!
# One walk over the machine

The functions of the machine, from transfers to nested calls of every depth, for any guard `G`
that allows what `Discipline` lists. The code of a frame acts on behalf of the frame's own
account, which is not in `V`: it has code, or it is being created. Accounts in `S` may pay all the
same, since a transaction spends for its sender.
-/

namespace GoAoa.VM

open Option Bool State State.StateDB Semantics

section Read

variable (db : StateDB) (a b : Address)

theorem view_balance : (view db).getBalance b = ((db.shown b).map fun x => x.1.balance).getD 0 := by
  simp only [View.getBalance, view, StateDB.shown, map_map]
  rfl

theorem view_nonce : (view db).getNonce b = ((db.shown b).map fun x => x.1.nonce).getD 0 := by
  simp only [View.getNonce, view, StateDB.shown, map_map]
  rfl

theorem view_code : (view db).getCode b = ((db.shown b).map fun x => x.1.code).getD [] := by
  simp only [View.getCode, view, StateDB.shown, map_map]
  rfl

theorem view_exist : (view db).exist b = (db.shown b).isSome := by
  simp only [View.exist, view, StateDB.shown, isSome_map]

def reading : Account := ((db.shown a).map Prod.fst).getD Account.blank

theorem reads : (view db).getNonce a = (reading db a).nonce ∧
      (view db).getBalance a = (reading db a).balance ∧ (view db).getCode a = (reading db a).code ∧
      (∀ key, (view db).getState a key = (reading db a).storage key) ∧
      (∀ x, (view db).getAssetBalance a x = (reading db a).assetList.balanceOf x) ∧
      (db.getLockBalance a).getD 0 = (reading db a).lockBalance.getD 0 ∧
      db.getVoteList a = (reading db a).voteList := by
  unfold View.getNonce View.getBalance View.getCode View.getState View.getAssetBalance
    getLockBalance getVoteList reading shown view
  dsimp only
  cases db.getStateObject a with
  | none | some => exact ⟨rfl, rfl, rfl, fun _ => rfl, fun _ => rfl, rfl, rfl⟩

theorem reading_edit (f : Writer) :
    reading (db.edit a f) b = if b = a then (db.edited a f).data else reading db b := by
  unfold reading
  rw [shown_edit]
  split <;> rfl

theorem reading_getOrNew : (db.getOrNewStateObject a).2.data = reading db a :=
  (getOrNew_shown db a).1

theorem reading_edit_rel {R : Account → Account → Prop} (hrefl : ∀ d, R d d) {f : Writer}
    (hf : ∀ w, f (db.getOrNewStateObject a).2 = some w →
      R (db.getOrNewStateObject a).2.data (w.apply (db.getOrNewStateObject a).2).data) :
    R (reading db b) (reading (db.edit a f) b) := by
  rw [reading_edit]
  split
  · rename_i h
    rw [h, ← reading_getOrNew, edited]
    cases hw : f (db.getOrNewStateObject a).2 with
    | none => exact hrefl _
    | some w => exact hf w hw
  · exact hrefl _

theorem reading_edit_of_eq {α : Type} (p : Account → α) {f : Writer}
    (hf : ∀ o w, f o = some w → p (w.apply o).data = p o.data) :
    p (reading (db.edit a f) b) = p (reading db b) :=
  reading_edit_rel db a b (R := fun d d' => p d' = p d) (fun _ => rfl) fun w => hf _ w

theorem shown_of_absent (h : ¬ (view db).exist b = true) : db.shown b = none := by
  rwa [view_exist, not_eq_true, isSome_eq_false_iff, isNone_iff_eq_none] at h

theorem reading_createAccount (h : ¬ (view db).exist a = true) :
    reading (db.createAccount a) b = reading db b := by
  unfold reading
  rw [shown_createAccount]
  split
  · rename_i hb
    rw [hb, shown_of_absent db a h]
    rfl
  · rfl

theorem view_absent (h : (view db).exist b = false) :
    (view db).getNonce b = 0 ∧ (view db).getCode b = [] ∧ (view db).getBalance b = 0 := by
  rw [view_exist, isSome_eq_false_iff, isNone_iff_eq_none] at h
  rw [view_nonce, view_code, view_balance, h]
  exact ⟨rfl, rfl, rfl⟩

theorem balance_getOrNew : (db.getOrNewStateObject a).2.data.balance = (view db).getBalance a := by
  rw [reading_getOrNew, (reads db a).2.1]

theorem balance_createAccount :
    (view (db.createAccount a)).getBalance b = (view db).getBalance b := by
  rw [view_balance, view_balance, shown_createAccount]
  by_cases h : b = a
  · rw [if_pos h, h]; rfl
  · rw [if_neg h]

theorem balance_setNonce (n : Nat) :
    (view (db.setNonce a n)).getBalance b = (view db).getBalance b := by
  rw [(reads _ b).2.1, (reads db b).2.1]
  exact reading_edit_of_eq db a b (·.balance) fun o w hf => by cases hf; rfl

end Read

/-! ## Guards -/

def Op.Idle : Op → Prop
  | .view | .setAssetData .. | .setState .. | .addRefund _ | .addLog _ => True
  | _ => False

/-- What a guard has to allow, in the states that have `I`, for the machine to keep to it. -/
structure Discipline (g : Growth) (ep : Bool) (createAddress : Address → Nat → Address)
    (V S : Address → Prop) (G : OpPred) (I : StateDB → Prop) : Prop where
  steps : ∀ {db db'}, I db → (semantics g ep).Steps G db db' → I db'
  code : ∀ {db a}, I db → V a → (view db).getCode a = []
  present : ∀ {db a}, I db → V a → (view db).exist a = true
  /-- A contract is not created over an account in `V`. -/
  vacant : ∀ {db a n}, I db → (view db).getNonce (createAddress a n) = 0 →
    (view db).getCode (createAddress a n) = [] → ¬ V (createAddress a n)
  idle : ∀ {db o}, o.Idle → G o db
  createAccount : ∀ {db a}, (view db).getNonce a = 0 → (view db).getCode a = [] → ¬ V a →
    G (.createAccount a) db
  addBalance : ∀ {db a x}, 0 ≤ x → G (.addBalance a x) db
  bequest : ∀ {db a b}, ¬ V b → G (.addBalance a ((view db).getBalance b)) db
  subBalance : ∀ {db a x}, (V a → S a) → 0 ≤ x → x ≤ (view db).getBalance a → G (.subBalance a x) db
  addAssetBalance : ∀ {db a asset x}, 0 ≤ x → G (.addAssetBalance a asset x) db
  subAssetBalance : ∀ {db a asset x}, 0 ≤ x → G (.subAssetBalance a asset x) db
  setNonce : ∀ {db a n}, ¬ V a → G (.setNonce a n) db
  setCode : ∀ {db a c}, ¬ V a → G (.setCode a c) db
  suicide : ∀ {db a}, ¬ V a → G (.suicide a) db

variable {V S : Address → Prop} {G : OpPred} {I : StateDB → Prop} {db : StateDB}
  {g : Growth} {ep : Bool} {E : EVM} {n : Nested} {f : Frame} {a : Address}

/-- A program keeps to the guard from every state that has `I`. -/
def Abides (g : Growth) (ep : Bool) (G : OpPred) (I : StateDB → Prop) {α : Type} (p : M α) : Prop :=
  ∀ db, I db → (semantics g ep).Does G p db fun _ _ => True

theorem Abides.pure {α : Type} (x : α) : Abides g ep G I (pure x) := fun _ _ => does_pure trivial

theorem Abides.fail {α : Type} : Abides g ep G I (.fail : M α) := fun _ _ => does_fail

theorem does_one {o : Op} (hg : G o db) :
    (semantics g ep).Does G (act o) db fun x t => exec g o db = some (x, t) :=
  does_call hg fun _ _ h => h

/-- A call that the guard allows in every state that has `I`. -/
theorem Abides.act {o : Op} (hg : ∀ db, I db → G o db) : Abides g ep G I (act o) :=
  fun db h => (does_one (hg db h)).mono fun _ _ _ _ => trivial

namespace Discipline

variable {createAddress : Address → Nat → Address} (D : Discipline g ep createAddress V S G I)

include D

section Rules

variable {α β : Type} {p : M α} {k : α → M β} {Q : α → StateDB → Prop}

theorem absent (h : I db) (hno : ¬ (view db).exist a = true) : ¬ V a :=
  fun hV => hno (D.present h hV)

theorem snapshot (h : I db) : I db.snapshot.2 := D.steps h (.keep (.refl _) (.refl _))

theorem does_view {k : View → M β} {Q : β → StateDB → Prop}
    (hk : (semantics g ep).Does G (k (view db)) db Q) :
    (semantics g ep).Does G (act .view >>= k) db Q := by
  refine does_bind (does_one (D.idle trivial)) fun v t _ hv => ?_
  cases hv
  exact hk

/-- After a program that keeps to the guard, one that does so from every state that has `I`. -/
theorem andThen (hp : (semantics g ep).Does G p db Q) (h : I db) (hk : ∀ a, Abides g ep G I (k a)) :
    (semantics g ep).Does G (p >>= k) db fun _ _ => True :=
  does_bind hp fun a t hs _ => hk a t (D.steps h hs)

theorem bind (hp : Abides g ep G I p) (hk : ∀ a, Abides g ep G I (k a)) :
    Abides g ep G I (p >>= k) :=
  fun _ h => D.andThen (hp _ h) h hk

theorem within {body : M (Bool × α)} (hb : Abides g ep G I body) : Abides g ep G I (.within body) :=
  fun _ h => does_within (hb _ (D.snapshot h)) fun _ _ _ _ _ _ => trivial

end Rules

/-! ## Transfers -/

theorem transfer {sender recipient : Address} {asset : Option Address} {amount : Nat}
    (h : I db) (hspend : V sender → S sender)
    (hpay : asset = none → (amount : Int) ≤ (view db).getBalance sender) :
    (semantics g ep).Does G (transfer sender recipient asset amount) db fun _ _ => True := by
  cases asset with
  | none =>
    refine D.andThen (does_one (D.subBalance hspend (by omega) (hpay rfl))) h fun _ => ?_
    exact .act fun _ _ => D.addBalance (by omega)
  | some =>
    refine D.andThen (does_one (D.subAssetBalance (by omega))) h fun ok => ?_
    cases ok
    · exact .pure _
    · exact .act fun _ _ => D.addAssetBalance (by omega)

end Discipline

/-! ## Code -/

structure Nested.Abides (n : Nested) (g : Growth) (ep : Bool) (V : Address → Prop)
    (G : OpPred) (I : StateDB → Prop) : Prop where
  call : ∀ kind f addr input gas value, ¬ V f.self →
    VM.Abides g ep G I (n.call kind f addr input gas value)
  create : ∀ f code gas value, ¬ V f.self → VM.Abides g ep G I (n.create f code gas value)

def transfers : Action → Bool
  | .addVote | .subVote | .register => false
  | _ => true

def isVote : Action → Bool
  | .addVote | .subVote => true
  | _ => false

/-- Votes can be counted in the scope a call opens. -/
def Votable (E : EVM) (W : OpPred) (user : Address) (votes : List Vote)
    (addr : Address) (db : StateDB) : Prop :=
  let o := Op.vote user votes E.delegateList E.maxElectDelegate
  W o db.snapshot.2 ∧ ((view db).exist addr = false → W o (db.snapshot.2.createAccount addr))

namespace Discipline

variable (D : Discipline g ep E.createAddress V S G I)

include D

section

variable (hn : n.Abides g ep V G I)
include hn

theorem runEffect (hself : ¬ V f.self) (e : Effect) : Abides g ep G I (runEffect n f e) := by
  cases e with
  | read | sstore | refund | log => exact .act fun _ _ => D.idle trivial
  | suicide =>
    intro db h
    refine D.does_view ?_
    refine D.andThen (does_one (D.bequest hself)) h fun _ => ?_
    exact D.bind (.act fun _ _ => D.suicide hself) fun _ => .pure _
  | transferAsset =>
    refine D.bind (.act fun _ _ => D.idle trivial) fun v => ?_
    split
    · exact D.bind (fun db h => D.transfer h (fun hV => absurd hV hself) nofun) fun _ => .pure _
    · exact .pure _
  | call kind addr input gas value => exact hn.call kind f addr input gas value hself
  | create code gas value => exact hn.create f code gas value hself

/-- **Code keeps to the guard**, whatever it is. -/
theorem runCode {α : Type} (hself : ¬ V f.self) (code : Code α) :
    Abides g ep G I (runCode n f code) := by
  induction code with
  | ret => exact .pure _
  | fail => exact .fail
  | op e k ih => exact D.bind (D.runEffect hn hself e) ih
  | scope body k ihb ihk => exact D.bind (D.within ihb) ihk

theorem run (hself : f.code ≠ [] → ¬ V f.self) : Abides g ep G I (run E n f) := by
  unfold VM.run
  split
  · exact .pure _
  · split
    · exact .pure _
    · rename_i hcode
      exact D.runCode hn (hself hcode) _

/-- The account whose code runs has code, so it is not in `V`. -/
theorem invoke (hself : ¬ V f.self ∨ f.codeAddr = f.self) : Abides g ep G I (invoke E n f) := by
  intro db h
  refine D.does_view ?_
  refine D.bind (D.run hn fun hcode => ?_) (fun _ => .pure _) db h
  rcases hself with hself | heq
  · exact hself
  · intro hV
    refine hcode ?_
    rw [heq]
    exact D.code h hV

/-! ## Calls -/

/-- `Call` once the recipient exists. Votes are counted where the guard allows it, and the value
is there. -/
theorem callBody {c : CallArgs} (h : I db)
    (hspend : transfers c.action = true → V c.caller → S c.caller)
    (hpay : transfers c.action = true → c.asset = none → (c.value : Int) ≤
      (view db).getBalance c.caller) (hvote : isVote c.action = true → c.votes ≠ [] →
      G (.vote c.caller c.votes E.delegateList E.maxElectDelegate) db) :
    (semantics g ep).Does G (callBody E n c) db fun _ _ => True := by
  have hinvoke : Abides g ep G I (VM.invoke E n c.frame) := D.invoke hn (.inr rfl)
  have hvote : isVote c.action = true → (semantics g ep).Does G
      (if c.votes = [] then pure (false, ⟨[], c.gas, some .emptyVoteList⟩)
       else do
        let ok ← act (.vote c.caller c.votes E.delegateList E.maxElectDelegate)
        if ok then VM.invoke E n c.frame else pure (true, ⟨[], c.gas, some .vote⟩)) db
      fun _ _ => True := by
    intro hv
    split
    · exact does_pure trivial
    · rename_i hne
      refine D.andThen (does_one (hvote hv hne)) h fun ok => ?_
      cases ok
      · exact .pure _
      · exact hinvoke
  have htransfer : transfers c.action = true → (semantics g ep).Does G
      (do VM.transfer c.caller c.addr c.asset c.value; VM.invoke E n c.frame) db fun _ _ => True :=
    fun ht => D.andThen (D.transfer h (hspend ht) (hpay ht)) h fun _ => hinvoke
  unfold VM.callBody
  cases hact : c.action <;> rw [hact] at hvote htransfer
  case addVote | subVote => exact hvote rfl
  case register =>
    cases E.delegateList with
    | none => exact does_fail
    | some =>
      dsimp only
      split
      · exact does_pure trivial
      · exact hinvoke db h
  all_goals exact htransfer rfl

end

/-- **`Call` keeps to the guard.** -/
theorem call {c : CallArgs} (hn : n.Abides g ep V G I) (h : I db)
    (hspend : transfers c.action = true → V c.caller → S c.caller)
    (hvote : isVote c.action = true → c.votes ≠ [] → canPay (view db) c = true →
      ((view db).exist c.addr = true ∨ (E.precompiled c.addr).isSome = true ∨ c.value ≠ 0) →
      Votable E G c.caller c.votes c.addr db) :
    (semantics g ep).Does G (call E n c) db fun _ _ => True := by
  refine D.does_view ?_
  split
  · rename_i hpay
    have hbal : transfers c.action = true → c.asset = none →
        (c.value : Int) ≤ (view db).getBalance c.caller := by
      intro ht hasset
      have hne : c.action ≠ .subVote := by rintro he; rw [he] at ht; cases ht
      have hcan := (and_eq_true _ _ ▸ hpay).1
      rw [if_neg hne, hasset] at hcan
      exact of_decide_eq_true hcan
    have hsnap := D.snapshot h
    refine does_within (R := fun _ _ => True) ?_ fun _ _ _ _ _ _ => trivial
    refine D.does_view ?_
    split
    · rename_i hexist
      exact D.callBody hn hsnap hspend hbal fun hv hne => (hvote hv hne hpay (.inl hexist)).1
    · rename_i hexist
      split
      · exact does_pure trivial
      · rename_i hskip
        have hgoes : (E.precompiled c.addr).isSome = true ∨ c.value ≠ 0 := by
          cases hp : E.precompiled c.addr with
          | some => exact .inl rfl
          | none => exact .inr (by simpa [hp] using hskip)
        have habs := view_absent db.snapshot.2 c.addr (not_eq_true _ ▸ hexist)
        refine does_bind (does_one
          (D.createAccount habs.1 habs.2.1 (D.absent hsnap hexist))) fun _ t hs hx => ?_
        have hI := D.steps hsnap hs
        obtain rfl := congrArg Prod.snd (some.inj hx)
        refine D.callBody hn hI hspend (fun ht hasset => ?_) fun hv hne =>
          (hvote hv hne hpay (.inr hgoes)).2 (not_eq_true _ ▸ hexist)
        rw [balance_createAccount]
        exact hbal ht hasset
  · exact does_pure trivial

/-! ## Calls on the caller's own account -/

theorem callCode (hn : n.Abides g ep V G I) (hself : ¬ V f.self) (addr : Address)
    (input : Bytes) (gas value : Nat) : Abides g ep G I (callCode E n f addr input gas value) := by
  refine D.bind (.act fun _ _ => D.idle trivial) fun v => ?_
  split
  · exact D.within (D.invoke hn (.inl hself))
  · exact .pure _

theorem delegateCall (hn : n.Abides g ep V G I) (hself : ¬ V f.self) (addr : Address)
    (input : Bytes) (gas : Nat) : Abides g ep G I (delegateCall E n f addr input gas) :=
  D.within (D.invoke hn (.inl hself))

theorem staticCall (hn : n.Abides g ep V G I) (addr : Address) (input : Bytes) (gas : Nat) :
    Abides g ep G I (staticCall E n f addr input gas) :=
  D.within (D.invoke hn (.inr rfl))

/-! ## Creation -/

theorem deposit (hfree : ¬ V a) (abiLen : Nat) (r : Reply) :
    Abides g ep G I (deposit a abiLen r) := by
  unfold VM.deposit
  dsimp only
  split
  · split
    · exact D.bind (.act fun _ _ => D.setCode hfree) fun _ => .pure _
    · exact .pure _
  · split <;> exact .pure _

/-- **`Create` keeps to the guard**: it makes an account only where there is no nonce and no
code. -/
theorem create {caller : Address} {code : Bytes} {gas value abiLen : Nat}
    {asset : Option Address} {readOnly : Bool} (hn : n.Abides g ep V G I) (h : I db)
    (hspend : V caller → S caller)
    (hnonce : G (.setNonce caller (u64 ((view db).getNonce caller + 1))) db) :
    (semantics g ep).Does G (create E n caller code gas asset value abiLen readOnly) db
      fun _ _ => True := by
  refine D.does_view ?_
  split
  · rename_i hcan
    refine does_bind (does_one hnonce) fun _ t hs hx => ?_
    have hI := D.steps h hs
    obtain rfl := congrArg Prod.snd (some.inj hx)
    refine D.does_view ?_
    split
    · rename_i hnew
      have hfree := D.vacant hI hnew.1 hnew.2
      refine D.andThen (Q := fun _ _ => True) ?_ hI fun _ => .pure _
      refine does_within (R := fun _ _ => True) ?_ fun _ _ _ _ _ _ => trivial
      have hsnap := D.snapshot hI
      refine does_bind (does_one (D.createAccount hnew.1 hnew.2 hfree)) fun _ t hs hx => ?_
      have hI' := D.steps hsnap hs
      obtain rfl := congrArg Prod.snd (some.inj hx)
      refine D.andThen (D.transfer hI' hspend fun hasset => ?_) hI' fun _ => ?_
      · rw [hasset] at hcan
        rw [balance_createAccount]
        show _ ≤ (view (db.setNonce caller _)).getBalance caller
        rw [balance_setNonce]
        exact of_decide_eq_true hcan
      · exact D.bind (D.run hn fun _ => hfree) (D.deposit hfree abiLen)
    · exact does_pure trivial
  · exact does_pure trivial

/-! ## Every depth -/

/-- **The machine keeps to the guard at every depth.** -/
theorem nested (d : Nat) : (nested E d).Abides g ep V G I := by
  induction d with
  | zero => exact ⟨fun _ _ _ _ _ _ _ => .pure _, fun _ _ _ _ _ => .pure _⟩
  | succ d ih =>
    constructor
    · intro kind f addr input gas value hself
      cases kind with
      | call => exact fun db h => D.call ih h (fun _ hV => absurd hV hself) nofun
      | callCode => exact D.callCode ih hself addr input gas value
      | delegateCall => exact D.delegateCall ih hself addr input gas
      | staticCall => exact D.staticCall ih addr input gas
    · intro f code gas value hself
      exact fun db h => D.create ih h (fun hV => absurd hV hself) (D.setNonce hself)

end Discipline

end GoAoa.VM
