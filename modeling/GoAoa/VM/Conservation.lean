import GoAoa.VM.Gas
import GoAoa.VM.Walk
import GoAoa.State.Holdings

/-!
# The machine moves what accounts hold

One pass over the functions of the machine, for any quantity that is kept by transfers, by the calls
that move nothing and by reverts (`Balanced`). The sum of AOA is one, as long as no account with
locked AOA is replaced (`balanced_aoa`). The sum of an asset, together with what the accounts held
that were replaced, is another (`balanced_asset`).
-/

namespace GoAoa.VM

open State State.StateDB Semantics List StateDB Account

variable {g : Growth} {ep : Bool} {db db' : StateDB}

/-! ## Taking calls back -/

/-- A call that can be taken back, as far as `h` goes. An account that is not there holds nothing
in the trie. -/
def Rewindable (h : Holding) (o : Op) (db : StateDB) : Prop :=
  (∀ a, db.shown a = none → h.stored (db.trie a) = 0) ∧
    match o with
    | .suicide _ => False
    | .addAssetBalance a id n => 0 ≤ n ∧ (h = .asset id → 0 ≤ db.amount h a)
    | .subAssetBalance _ _ n => 0 ≤ n
    | _ => True

variable {h : Holding}

theorem rewinds_vote {user : Address} {votes : List Vote}
    {dl : Option (List Address)} {m : Int} {ok : Bool}
    (hvoid : ∀ a, db.shown a = none → h.stored (db.trie a) = 0)
    (hx : db.vote g m dl user votes = some (ok, db')) : Rewinds h ep db db' := by
  refine (vote_rule (P := fun t => Rewinds h ep db t ∧
    (t.shown user = none → h.stored (t.trie user) = 0)) hx (fun _ e _ _ _ => ?_)
      fun t f ht hf => ?_).1
  · obtain ⟨htrie, -, -, hj⟩ := rest_setVoteCells db user e.prev
    have hcells : Rewinds h ep db (db.setVoteCells user e.prev) :=
      .of_journal htrie (hj ▸ .refl _) (amount_setVoteCells e.prev)
    refine ⟨hcells, fun hnone => ?_⟩
    rw [hcells.trie]
    refine hvoid user ?_
    rw [shown_setVoteCells, if_pos rfl] at hnone
    exact Option.map_eq_none_iff.1 hnone
  · refine ⟨ht.1.trans (.edit ht.2 fun w hw => ?_), fun hnone => ?_⟩
    · rcases hf _ w hw with rfl | ⟨v, -, rfl⟩ <;> trivial
    -- from the first change on the account is there, if it was not before
    · rw [shown_edit, if_pos rfl] at hnone
      cases hnone

theorem rewinds_exec {o : Op} {x : Ans o} (hg : Rewindable h o db)
    (hx : exec g o db = some (x, db')) : Rewinds h ep db db' := by
  obtain ⟨hvoid, hg⟩ := hg
  cases executed hx with
  | idle => exact .refl db
  | @account a | @object a => exact .create (hvoid a)
  | refund | log => exact .of_append rfl rfl trivial fun _ => rfl
  | @edit _ a f writes =>
    refine .edit (hvoid a) fun w hf => ?_
    cases writes _ w hf with
    | addAsset =>
      refine ⟨hg.1, fun hid => ?_⟩
      rw [amount_getOrNew]
      exact hg.2 hid
    | subAsset hsome => exact ⟨hg, hsome⟩
    | suicide => exact hg.elim
    | _ => trivial
  | @describe a data ob get =>
    refine .of_journal rfl (.refl _) ?_
    have hset : (db.setAssetData a data).amount h = db.amount h := amount_setAssetData data
    unfold setAssetData at hset
    rwa [get] at hset
  | vote run => exact rewinds_vote hvoid run

theorem keeps_rewinds (g : Growth) (ep : Bool) (h : Holding) :
    (semantics g ep).Keeps (Rewindable h) (fun _ => True) (Rewinds h ep) where
  refl := .refl
  trans := .trans
  exec _ hg hx := ⟨trivial, rewinds_exec hg hx⟩
  snapshot _ := ⟨trivial, .of_journal rfl (.snapshot _) rfl⟩
  revert _ _ hr hu := ⟨trivial, (hr.revert hu).2⟩

theorem rewinds_steps (hs : (semantics g ep).Steps (Rewindable h) db db') : Rewinds h ep db db' :=
  ((keeps_rewinds g ep h).steps hs trivial).2

/-! ## Keeping a quantity -/

/-- What a quantity needs for the machine to keep it: it is kept by transfers, by all calls that
move nothing, and by reverts. The guard lets no account be destroyed. -/
structure Balanced (g : Growth) (ep : Bool) (G : OpPred)
    (R : StateDB → StateDB → Prop) (μ : StateDB → Int) : Prop where
  exec : ∀ {db db' : StateDB} {o : Op} {r : Ans o}, moves o = false → G o db →
    VM.exec g o db = some (r, db') → μ db' = μ db
  immortal : ∀ a db, ¬ G (.suicide a) db
  transfer : ∀ sender recipient asset amount,
    (semantics g ep).Conserves G R μ (transfer sender recipient asset amount)
  recovers : (semantics g ep).Recovers G R μ

section Pass

variable {G : OpPred} {R : StateDB → StateDB → Prop} {μ : StateDB → Int} {E : EVM}
  {n : Nested} {f : Frame}

/-- The program keeps the quantity. -/
abbrev Conserving (g : Growth) (ep : Bool) (G : OpPred)
    (R : StateDB → StateDB → Prop) (μ : StateDB → Int) {α : Type} (p : M α) : Prop :=
  (semantics g ep).Conserves G R μ p

structure Nested.Conserves (n : Nested) (g : Growth) (ep : Bool) (G : OpPred)
    (R : StateDB → StateDB → Prop) (μ : StateDB → Int) : Prop where
  call : ∀ kind f addr input gas value, Conserving g ep G R μ (n.call kind f addr input gas value)
  create : ∀ f code gas value, Conserving g ep G R μ (n.create f code gas value)

variable (hμ : Balanced g ep G R μ)
include hμ

theorem conserving_act {o : Op} (hm : moves o = false) : Conserving g ep G R μ (act o) :=
  conserves_call fun _ _ _ hg hx => hμ.exec hm hg hx

theorem conserving_runEffect (hn : n.Conserves g ep G R μ) (e : Effect) :
    Conserving g ep G R μ (runEffect n f e) := by
  cases e with
  | read | sstore | refund | log => exact conserving_act hμ rfl
  | suicide beneficiary =>
    intro db r db' hm _
    have hm := (meets_bind.1 hm).2 (view db, db) rfl
    have hm := (meets_bind.1 hm).2 ((), db.addBalance beneficiary _) rfl
    exact absurd (meets_call.1 (meets_bind.1 hm).1) (hμ.immortal _ _)
  | transferAsset =>
    refine .bind (conserving_act hμ rfl) fun v => ?_
    split
    · exact .bind (hμ.transfer _ _ _ _) fun _ => conserves_pure _
    · exact conserves_pure _
  | call kind addr input gas value => exact hn.call kind f addr input gas value
  | create code gas value => exact hn.create f code gas value

theorem conserving_run (hn : n.Conserves g ep G R μ) : Conserving g ep G R μ (run E n f) := by
  unfold run
  split
  · exact conserves_pure _
  · split
    · exact conserves_pure _
    · exact conserves_handle hμ.recovers (conserving_runEffect hμ hn) _

theorem walks_conserving : Walks (fun p _ _ => Conserving g ep G R μ p) fun _ _ => True where
  toBounded := bounded_true
  pure _ := conserves_pure _
  fail := conserves_fail
  act := conserving_act hμ
  transfer := hμ.transfer
  bind := .bind
  bindReply hp hk := .bind hp fun r => hk r trivial
  within := .within hμ.recovers

theorem conserving_call {c : CallArgs} (hn : n.Conserves g ep G R μ) :
    Conserving g ep G R μ (call E n c) :=
  (walks_conserving hμ).call (m := n) (fun _ => conserving_run hμ hn) c

theorem conserving_create {caller : Address} {code : Bytes} {gas value abiLen : Nat}
    {asset : Option Address} {readOnly : Bool} (hn : n.Conserves g ep G R μ) :
    Conserving g ep G R μ (create E n caller code gas asset value abiLen readOnly) :=
  (walks_conserving hμ).create (m := n) (fun _ => conserving_run hμ hn) _ _ _ _ _ _ _

/-- **The machine keeps the quantity at every depth.** -/
theorem conserves_nested (E : EVM) (d : Nat) : (nested E d).Conserves g ep G R μ := by
  have h := (walks_conserving hμ).nested (E := E) (I := E.interp)
    (fun hn _ => conserving_run hμ ⟨hn.call, hn.create⟩) d
  exact ⟨h.call, h.create⟩

end Pass

/-! ## Sums -/

variable {x : Option Address}

section Sums

variable {id : Address}

/-- What a call takes from the sum of a currency by replacing an account. -/
def lostBy (x : Option Address) : Op → StateDB → Int
  | .createAccount a, db => db.dropped x a
  | .createObject a, db => db.worth x a
  | _, _ => 0

theorem supply_exec {o : Op} {r : Ans o} (hm : moves o = false) (hs : ∀ a, o ≠ .suicide a)
    (hx : exec g o db = some (r, db')) : db'.supply x = db.supply x - lostBy x o db := by
  -- most calls change no amount
  have hsame : ∀ {t : StateDB}, (∀ k, t.amount k = db.amount k) → t.supply x = db.supply x - 0 :=
    fun h => (supply_congr fun k _ => h k).trans (Int.sub_zero _).symm
  cases o with
  | createAccount => cases hx; exact supply_createAccount
  | createObject => cases hx; exact supply_createObject
  | suicide a => exact absurd rfl (hs a)
  | vote => exact (supply_vote hx).trans (Int.sub_zero _).symm
  | setAssetData a data => cases hx; exact hsame fun _ => amount_setAssetData data
  | setNonce a n => cases hx; exact hsame fun _ => amount_setNonce n
  | setCode a c => cases hx; exact hsame fun _ => amount_setCode c
  | setState a key value => cases hx; exact hsame fun _ => amount_setState key value
  | view | addRefund | addLog => cases hx; exact hsame fun _ => rfl
  | _ => cases hm

/-- **A transfer gives what it takes.** -/
theorem supply_transfer {G : OpPred} {R : StateDB → StateDB → Prop}
    (sender recipient : Address) (asset : Option Address) (amount : Int) :
    Conserving g ep G R (fun db => db.supply x) (transfer sender recipient asset amount) := by
  intro db r db' _ _ hr
  cases asset with
  | none =>
    cases hr
    show ((db.subBalance sender amount).addBalance recipient amount).supply x = db.supply x
    rw [supply_addBalance, supply_subBalance]
    omega
  | some id =>
    have hsub : (db.subAssetBalance sender id amount).2.supply x = db.supply x -
        if x = some id ∧ (db.subAssetBalance sender id amount).1 = true then amount else 0 :=
      supply_subAssetBalance id amount
    have hr : (semantics g ep).run (ite ((db.subAssetBalance sender id amount).1 = true) _ _)
      (db.subAssetBalance sender id amount).2 = some (r, db') := hr
    cases hok : (db.subAssetBalance sender id amount).1 with
    | false =>
      rw [hok] at hr hsub
      cases hr
      simpa using hsub
    | true =>
      rw [hok] at hr hsub
      cases hr
      show ((db.subAssetBalance sender id amount).2.addAssetBalance recipient id amount).supply x = _
      rw [supply_addAssetBalance, hsub]
      by_cases hid : x = some id <;> simp [hid]

/-- A call that drops no AOA. -/
def Safe (o : Op) (db : StateDB) : Prop :=
  (∀ h ∈ parts none, Rewindable h o db) ∧ lostBy none o db = 0

theorem balanced_aoa (g : Growth) (ep : Bool) :
    Balanced g ep Safe (fun _ _ => True) fun db => db.supply none where
  exec hm hg hx := by
    refine (supply_exec hm ?_ hx).trans ?_
    · rintro a rfl
      exact (hg.1 .balance (mem_cons_self ..)).2
    · rw [hg.2, Int.sub_zero]
  immortal a db hg := (hg.1 .balance (mem_cons_self ..)).2
  transfer := supply_transfer
  recovers :=
    { snapshot := fun _ => rfl
      revert := fun hs _ _ hu => supply_congr fun k hk =>
        ((rewinds_steps (hs.mono fun _ _ hg => hg.1 k hk)).revert hu).1 (journaled_of_mem hk ep) }

/-- All there is of an asset, with what was replaced. -/
def accounted (id : Address) (db : StateDB) : Int := db.supply (some id) + db.replaced (.asset id)

/-- Before the Epiphron block reverts do not take assets back. The accounts that are then taken back
must have none of the asset. -/
def TakesNone (id : Address) (ep : Bool) (s t : StateDB) : Prop :=
  ep = false → ∀ es, t.journal.entries = es ++ s.journal.entries →
    (Holding.asset id).EmptyHanded t.trie (t.amount (.asset id)) es

theorem replaced_exec {o : Op} {r : Ans o} (hs : ∀ a, o ≠ .suicide a)
    (hx : exec g o db = some (r, db')) :
    db'.replaced (.asset id) = db.replaced (.asset id) + lostBy (some id) o db := by
  cases o with
  | createAccount | createObject => cases hx; exact (replaced_create _).trans (Int.add_comm _ _)
  | suicide a => exact absurd rfl (hs a)
  | vote => exact (replaced_vote hx).trans (Int.add_zero _).symm
  | view => cases hx; exact (Int.add_zero _).symm
  | setAssetData =>
    cases hx
    refine Eq.trans (replaced_of_journal ?_) (Int.add_zero _).symm
    unfold setAssetData
    split <;> rfl
  | addRefund | addLog =>
    cases hx
    refine Eq.trans (replaced_of_extends (.append db.journal _)) ?_
    exact (Int.zero_add _).trans (Int.add_zero _).symm
  | _ => cases hx; exact (replaced_edit _).trans (Int.add_zero _).symm

theorem replaced_transfer {G : OpPred} {R : StateDB → StateDB → Prop}
    (sender recipient : Address) (asset : Option Address) (amount : Int) :
    Conserving g ep G R (fun db => db.replaced (.asset id))
      (transfer sender recipient asset amount) := by
  have hcall : ∀ o, (∀ a, o ≠ .suicide a) → (∀ a, o ≠ .createAccount a) →
      (∀ a, o ≠ .createObject a) →
      Conserving g ep G R (fun db => db.replaced (.asset id)) (act o) := by
    intro o hs ha ho
    refine conserves_call fun db r db' _ hx => (replaced_exec hs hx).trans ?_
    cases o with
    | createAccount a => exact absurd rfl (ha a)
    | createObject a => exact absurd rfl (ho a)
    | _ => exact Int.add_zero _
  cases asset with
  | none => exact .bind (hcall _ nofun nofun nofun) fun _ => hcall _ nofun nofun nofun
  | some =>
    refine .bind (hcall _ nofun nofun nofun) fun ok => ?_
    split
    · exact hcall _ nofun nofun nofun
    · exact conserves_pure _

theorem replaced_reverted {t u : StateDB}
    (hs : (semantics g ep).Steps (Rewindable h) db.snapshot.2 t)
    (hu : t.revertToSnapshot ep db.snapshot.1 = some u) : u.replaced h = db.replaced h := by
  obtain ⟨-, -, hext, -⟩ := (rewinds_steps hs).amount_revert hu
  exact (replaced_of_extends hext).trans (Int.zero_add _)

/-- **An asset is moved, or it is in an account that was replaced.** -/
theorem balanced_asset (g : Growth) (ep : Bool) (id : Address) :
    Balanced g ep (Rewindable (.asset id)) (TakesNone id ep) (accounted id) where
  exec := by
    intro db db' o r hm hg hx
    have hs : ∀ a, o ≠ .suicide a := by
      rintro a rfl
      exact hg.2
    unfold accounted
    rw [supply_exec hm hs hx, replaced_exec hs hx]
    omega
  immortal a db hg := hg.2
  transfer sender recipient asset amount := by
    intro db r db' hm hv hr
    have hsup : db'.supply (some id) = db.supply (some id) :=
      supply_transfer sender recipient asset amount db r db' hm hv hr
    have hrep : db'.replaced (.asset id) = db.replaced (.asset id) :=
      replaced_transfer sender recipient asset amount db r db' hm hv hr
    exact congrArg₂ (· + ·) hsup hrep
  recovers :=
    { snapshot := fun _ => rfl
      revert := by
        intro db t u hs hv heq hu
        have hrew := rewinds_steps hs
        have hrep := replaced_reverted hs hu
        unfold accounted
        rw [hrep]
        cases hep : ep with
        | true =>
          subst hep
          have hsame : u.supply (some id) = db.supply (some id) := by
            refine supply_congr fun k hk => ?_
            obtain rfl := mem_singleton.1 hk
            exact (hrew.revert hu).1 rfl
          rw [hsame]
        | false =>
          subst hep
          obtain ⟨es, hext, -, -, hamount⟩ := hrew.amount_revert hu
          have hempty := hv rfl es hext.entries
          have hsum : u.supply (some id) = t.supply (some id) +
              (es.map (Holding.asset id).replacedBy).sum := by
            show ∑ a, u.amount (.asset id) a = _
            have htrie' : t.trie = db.trie := hrew.trie
            rw [htrie'] at hempty
            rw [hamount, Holding.sum_undone hempty]
            rfl
          have hjournal := replaced_of_extends (h := .asset id) hext
          have hstart : db.snapshot.2.replaced (.asset id) = db.replaced (.asset id) := rfl
          unfold accounted at heq
          omega }

/-- A call that replaces no account that has some of the asset. -/
def SparesAsset (id : Address) (o : Op) (db : StateDB) : Prop := lostBy (some id) o db = 0

/-- **A program keeps the sum of an asset** if the accounts it replaces for good have none of it. -/
theorem supply_of_lasting {α : Type} {p : M α} {y : α}
    (hp : Conserving g ep (Rewindable (.asset id)) (TakesNone id ep) (accounted id) p)
    (hm : (semantics g ep).Meets (Rewindable (.asset id)) p db)
    (hv : (semantics g ep).Reverts (TakesNone id ep) p db)
    (hl : (semantics g ep).Lasting (SparesAsset id) p db)
    (hr : (semantics g ep).run p db = some (y, db')) : db'.supply (some id) = db.supply (some id) := by
  have hsum := hp db y db' hm hv hr
  have hrep : db'.replaced (.asset id) = db.replaced (.asset id) := by
    have hexec : ∀ {o : Op} {t : StateDB} {r : Ans o} {u : StateDB}, Rewindable (.asset id) o t →
        SparesAsset id o t → (semantics g ep).exec o t = some (r, u) →
        u.replaced (.asset id) = t.replaced (.asset id) := by
      intro o t r u hg hspare hx
      have hs : ∀ a, o ≠ .suicide a := by
        rintro a rfl
        exact hg.2
      rw [replaced_exec hs hx, hspare, Int.add_zero]
    exact Lasting.eq hexec (fun _ => rfl) replaced_reverted hm hl hr
  unfold accounted at hsum
  omega

end Sums

/-! ## What makes calls safe -/

/-- What is known of an account while code runs. One that is not there has nothing in the trie; one
that is there is not destroyed and owes no asset. Where AOA is counted, the accounts in `V` have a
nonce, and the others have nothing locked. -/
def Tended (x : Option Address) (V : Address → Prop) (T : Trie) (a : Address) : Option Shown → Prop
  | none => (∀ h ∈ parts x, h.stored (T a) = 0) ∧ (x = none → ¬ V a)
  | some (d, s) => s = false ∧ d.assetList.Nonneg ∧
      (x = none → (V a → 1 ≤ d.nonce) ∧ (¬ V a → d.lockBalance.getD 0 = 0))

/-- The calls that keep it. -/
def Tends (x : Option Address) (V : Address → Prop) : OpPred
  | .suicide _, _ => False
  | .createAccount a, _ => x = none → ¬ V a
  | .createObject a, _ => x = none → ¬ V a
  | .setNonce a n, _ => x = none → V a → 1 ≤ n
  | .vote user .., _ => x = none → V user
  | .addAssetBalance _ _ n, _ => 0 ≤ n
  | .subAssetBalance _ _ n, _ => 0 ≤ n
  | _, _ => True

variable {V : Address → Prop} {T : Trie} {a : Address}

section Tended

variable {d : Account} {s : Bool}

theorem tended_blank (hV : x = none → ¬ V a) (b : Int) :
    Tended x V T a (some ({ blank with balance := b }, false)) :=
  ⟨rfl, .empty, fun hx => ⟨fun h => absurd h (hV hx), fun _ => rfl⟩⟩

/-- What the trie has comes back when a new account is taken back. -/
theorem tended_back (h : Tended x V T a none) :
    Tended x V T a ((T a).map fun s => (s.decode, false)) := by
  cases ht : T a with
  | none => exact h
  | some st =>
    refine ⟨rfl, st.nonneg, fun hx => ⟨fun hV => absurd hV (h.2 hx), fun _ => ?_⟩⟩
    have hlock := h.1 .lock (by rw [hx]; simp [parts])
    rw [ht] at hlock
    exact hlock

theorem Tended.data (h : Tended x V T a (some (d, s))) {d' : Account} (hn : d'.nonce = d.nonce)
    (hl : d'.lockBalance = d.lockBalance) (has : d'.assetList.Nonneg) :
    Tended x V T a (some (d', s)) := by
  refine ⟨h.1, has, fun hx => ?_⟩
  rw [hn, hl]
  exact h.2.2 hx

theorem Tended.asset (h : Tended x V T a (some (d, s))) {y : Asset} {o : StateObject} {add : Bool}
    (hy : 0 ≤ y.balance) (ho : o.data = d) :
    Tended x V T a (some ((revertAssetBalance y add o).data, s)) := by
  subst ho
  cases add with
  | false => exact h.data rfl rfl (h.2.1.addAsset hy)
  | true =>
    refine h.data rfl rfl ?_
    show ((o.data.assetList.subAsset y).getD o.data.assetList).Nonneg
    cases hl : o.data.assetList.subAsset y with
    | none => exact h.2.1
    | some => exact h.2.1.subAsset hl

theorem tended_edit {f : Writer} (h : Holds T (Tended x V T) db)
    (hw : ∀ o w, f o = some w → Tended x V T a (some (o.data, o.suicided)) →
      Tended x V T a (some ((w.apply o).data, (w.apply o).suicided)) ∧
        Restores T (Tended x V T) (w.entry a o)) :
    Carries T (Tended x V T) db (db.edit a f) := by
  refine h.edit (fun hnone => ?_) (hw _)
  have hshown := h.shown a
  rw [shown, hnone] at hshown
  exact ⟨tended_back hshown, tended_blank hshown.2 0⟩

theorem tended_field {v : Field} {o : StateObject} (hv : ∀ d : Account, (v.set d).nonce = d.nonce ∧
      (v.set d).lockBalance = d.lockBalance ∧ (v.set d).assetList = d.assetList)
    (hv' : ∀ d d' : Account, ((v.current d).set d').nonce = d'.nonce ∧
      ((v.current d).set d').lockBalance = d'.lockBalance ∧
      ((v.current d).set d').assetList = d'.assetList)
    (h : Tended x V T a (some (o.data, o.suicided))) :
    Tended x V T a (some (((Write.field v).apply o).data, o.suicided)) ∧
      Restores T (Tended x V T) ((Write.field v).entry a o) := by
  refine ⟨h.data (hv _).1 (hv _).2.1 ((hv o.data).2.2 ▸ h.2.1), fun d s hd => ?_⟩
  exact hd.data (hv' o.data d).1 (hv' o.data d).2.1 ((hv' o.data d).2.2 ▸ hd.2.1)

theorem tended_vote {user : Address} {votes : List Vote} {dl : Option (List Address)} {m : Int}
    {ok : Bool} (h : Holds T (Tended x V T) db) (hV : x = none → V user)
    (hx : db.vote g m dl user votes = some (ok, db')) :
    Carries T (Tended x V T) db db' := by
  refine h.vote (fun v hv hP => ?_) (fun hnone => ?_) hx
  · refine ⟨hP.1, ?_, fun hx => ⟨fun hVu => ?_, fun hVu => absurd (hV hx) hVu⟩⟩
    · cases v <;> exact hP.2.1
    · have hn := (hP.2.2 hx).1 hVu
      cases v <;> first | exact hn | cases hv
  · exact ⟨tended_back hnone, tended_blank hnone.2 0⟩

/-- **Calls that tend to accounts keep them so.** -/
theorem tended_exec {o : Op} {r : Ans o} (h : Holds T (Tended x V T) db) (hg : Tends x V o db)
    (hx : exec g o db = some (r, db')) :
    Carries T (Tended x V T) db db' := by
  have hback : ∀ {a}, db.getStateObject a = none →
      Tended x V T a ((T a).map fun s => (s.decode, false)) := by
    intro a hnone
    have hshown := h.shown a
    rw [shown, hnone] at hshown
    exact tended_back hshown
  cases executed hx with
  | idle => exact ⟨h, .refl db⟩
  | refund | log => exact ⟨h.of_objects rfl rfl, .of_append rfl trivial⟩
  | account | object => exact h.create hback (tended_blank hg _)
  | edit writes =>
    refine tended_edit h fun ob w hf hPo => ?_
    cases writes ob w hf with
    | touch => exact ⟨hPo, trivial⟩
    | addBalance | subBalance | code | storage =>
      exact tended_field (fun _ => ⟨rfl, rfl, rfl⟩) (fun _ _ => ⟨rfl, rfl, rfl⟩) hPo
    | addAsset => exact ⟨hPo.data rfl rfl (hPo.2.1.addAsset hg), fun _ hPo' => hPo'.asset hg rfl⟩
    | subAsset =>
      exact ⟨@Tended.asset _ _ _ _ _ _ hPo _ _ true hg rfl, fun _ hPo' => hPo'.asset hg rfl⟩
    | nonce =>
      refine ⟨⟨hPo.1, hPo.2.1, fun hx => ⟨hg hx, (hPo.2.2 hx).2⟩⟩, fun d s hd => ?_⟩
      exact ⟨hd.1, hd.2.1, fun hx => ⟨(hPo.2.2 hx).1, (hd.2.2 hx).2⟩⟩
    | suicide => exact hg.elim
  | @describe a data ob get =>
    have hPo := h.shown a
    rw [shown_of_get db a get] at hPo
    exact ⟨h.write (hPo.data rfl rfl hPo.2.1), .of_journal rfl⟩
  | vote run => exact tended_vote h hg run

theorem keeps_tended (g : Growth) (ep : Bool) (x : Option Address) (V : Address → Prop) (T : Trie) :
    (semantics g ep).Keeps (Tends x V) (Holds T (Tended x V T)) (Grew T (Tended x V T)) :=
  keeps_of_exec tended_exec

theorem rewindable_of_tended (hh : h ∈ parts x) {o : Op}
    (hdb : Holds T (Tended x V T) db) (hg : Tends x V o db) : Rewindable h o db := by
  refine ⟨fun a hnone => ?_, ?_⟩
  · have hshown := hdb.shown a
    rw [hnone] at hshown
    rw [hdb.trie]
    exact hshown.1 h hh
  · cases o with
    | suicide => exact hg.elim
    | addAssetBalance a id =>
      refine ⟨hg, fun hid => ?_⟩
      have hshown := hdb.shown a
      subst hid
      unfold amount
      cases hs : db.shown a with
      | none => exact Int.le_refl 0
      | some =>
        rw [hs] at hshown
        exact hshown.2.1.balanceOf id
    | subAssetBalance => exact hg
    | _ => trivial

theorem dropped_of_tended (hdb : Holds T (Tended none V T) db) (hV : ¬ V a) :
    db.dropped none a = 0 := by
  have hshown := hdb.shown a
  show db.amount .lock a = 0
  unfold amount
  cases hs : db.shown a with
  | none => rfl
  | some =>
    rw [hs] at hshown
    exact (hshown.2.2 rfl).2 hV

end Tended

/-! ## Between transactions -/

def HasNonce (db : StateDB) (a : Address) : Prop := 1 ≤ (view db).getNonce a

/-- What is known of the accounts between transactions. What was removed held nothing. -/
structure Fit (x : Option Address) (db : StateDB) : Prop where
  tended : Holds db.trie (Tended x (HasNonce db) db.trie) db
  gone : ∀ h ∈ parts x, ∀ a o, db.stateObjects a = some (.deleted o) → h.amount o.data = 0

section Fit

variable {b : Bool}

variable {d : Account}

theorem nonce_of_shown {s : Bool} (h : db.shown a = some (d, s)) :
    (view db).getNonce a = d.nonce := by
  rw [view_nonce, h]
  rfl

/-- The accounts in `V` are among those with a nonce, so these can stand for `V`. -/
theorem Tended.renumber (h : Tended x V T a (db.shown a)) :
    Tended x (HasNonce db) T a (db.shown a) := by
  cases hs : db.shown a with
  | none =>
    rw [hs] at h
    refine ⟨h.1, fun _ hn => ?_⟩
    unfold HasNonce at hn
    rw [view_nonce, hs] at hn
    exact absurd hn (by decide)
  | some =>
    rw [hs] at h
    refine ⟨h.1, h.2.1, fun hx => ?_⟩
    unfold HasNonce
    rw [nonce_of_shown hs]
    exact ⟨id, fun hn => (h.2.2 hx).2 fun hV => hn ((h.2.2 hx).1 hV)⟩

theorem tended_renumber (h : Holds T (Tended x V T) db) : Holds T (Tended x (HasNonce db) T) db :=
  ⟨h.trie, fun a => (h.shown a).renumber⟩

theorem Fit.next (h : Fit x db) (ht : Holds db.trie (Tended x V db.trie) db')
    (hrem : RemovesNone db db') : Fit x db' := by
  refine ⟨?_, fun k hk a o ho => h.gone k hk a o (hrem a o ho)⟩
  rw [ht.trie]
  exact tended_renumber ht

theorem Fit.new {trie : Trie}
    (h : x = none → ∀ a s, trie a = some s → s.nonce = 0 → s.lockBalance = 0) :
    Fit x (.new trie) := by
  refine ⟨⟨rfl, fun a => ?_⟩, fun _ _ a o ho => nomatch ho⟩
  have hshown := shown_new a trie
  rw [hshown]
  show Tended x _ trie a _
  cases ht : trie a with
  | none =>
    refine ⟨fun h _ => by rw [ht]; rfl, fun _ hn => ?_⟩
    unfold HasNonce at hn
    rw [view_nonce, hshown, ht] at hn
    exact absurd hn (by decide)
  | some s =>
    refine ⟨rfl, s.nonneg, fun hx => ?_⟩
    unfold HasNonce
    rw [view_nonce, hshown, ht]
    refine ⟨id, fun hn => ?_⟩
    have hzero := h hx a s ht (Nat.lt_one_iff.1 (Nat.not_le.1 hn))
    show (s.lockBalance : Int) = 0
    rw [hzero]
    rfl

theorem amount_encode (h : Holding) {s : StoredAccount} (hs : d.encode = some s) :
    h.amount s.decode = h.amount d := by
  obtain ⟨-, hbal, hlock, -⟩ := encode_eq_some hs
  cases h with
  | balance => exact hbal
  | lock => exact hlock
  | asset =>
    unfold encode at hs
    split at hs
    · split at hs
      · cases hs; rfl
      · cases hs
    · cases hs

theorem amount_of_empty (hh : h ∈ parts x) {s : Bool}
    (ht : Tended x (HasNonce db) T a (some (d, s))) (hs : db.shown a = some (d, s))
    (he : d.isEmpty = true) : h.amount d = 0 := by
  simp only [Account.isEmpty, Bool.and_eq_true, beq_iff_eq] at he
  obtain ⟨⟨⟨hn, hb⟩, -⟩, has⟩ := he
  cases h with
  | balance => exact hb
  | lock =>
    have hx : x = none := by
      cases x with
      | none => rfl
      | some => simp [parts] at hh
    refine (ht.2.2 hx).2 fun hV => ?_
    unfold HasNonce at hV
    rw [nonce_of_shown hs, hn] at hV
    exact absurd hV (by decide)
  | asset =>
    have hnil := isEmpty_iff.1 has
    refine Assets.balanceOf_of_none ?_
    unfold Assets.find
    rw [hnil]
    rfl

theorem Fit.amount_removed {k : Holding} (h : Fit x db) (hk : k ∈ parts x) {o : StateObject}
    (hget : db.getStateObject a = some o) (hrem : removes b o = true) : db.amount k a = 0 := by
  have hs := shown_of_get db a hget
  have hshown := h.tended.shown a
  rw [hs] at hshown
  have halive := hshown.1
  simp only [removes, halive, Bool.false_or, Bool.and_eq_true] at hrem
  rw [amount_of_get hget]
  exact amount_of_empty hk hshown hs hrem.2

theorem Fit.stored {k : Holding} (h : Fit x db) (hk : k ∈ parts x)
    (hf : db.finalise b = some db') (hd : a ∈ db.stateObjectsDirty) :
    k.stored (db'.trie a) = db.amount k a := by
  rcases finalise_at hf a with ⟨-, slot, slot', hslot, -, hfin⟩ | ⟨hnot, -⟩
  · cases slot with
    | live =>
      have hget := get_live hslot
      rcases finaliseSlot_cases hfin with ⟨hrem, htrie, -⟩ | ⟨-, -, st, hst, htrie⟩
      · rw [htrie, h.amount_removed hk hget hrem]
        rfl
      · rw [htrie, amount_of_get hget]
        exact amount_encode k hst
    | deleted o =>
      rw [amount_of_none (shown_deleted hslot)]
      rcases finaliseSlot_cases hfin with ⟨-, htrie, -⟩ | ⟨-, -, st, hst, htrie⟩
      · rw [htrie]
        rfl
      · rw [htrie]
        exact (amount_encode k hst).trans (h.gone k hk a o hslot)
  · exact absurd hd hnot

/-- **`Finalise` takes nothing from accounts that are fit.** -/
theorem Fit.finalise (h : Fit x db) (hf : db.finalise b = some db') :
    (∀ k ∈ parts x, db'.amount k = db.amount k) ∧ Fit x db' := by
  -- address by address: what is shown stays, or is gone and held nothing
  have hat : ∀ a, db'.shown a = db.shown a ∨
      db'.shown a = none ∧ ∀ k ∈ parts x, db.amount k a = 0 := by
    intro a
    rcases shown_finalise hf a with hs | ⟨hs, o, hget, hrem⟩
    · exact .inl hs
    · exact .inr ⟨hs, fun k hk => h.amount_removed hk hget hrem⟩
  have hnone : ∀ a, db'.shown a = none → ∀ k ∈ parts x, db.amount k a = 0 := by
    intro a ha k hk
    rcases hat a with hs | ⟨-, hzero⟩
    · exact amount_of_none (hs.symm.trans ha)
    · exact hzero k hk
  have hstored : ∀ a, db'.shown a = none → ∀ k ∈ parts x, k.stored (db'.trie a) = 0 := by
    intro a ha k hk
    rcases finalise_at hf a with ⟨hd, -⟩ | ⟨-, hobj, htrie⟩
    · rw [h.stored hk hf hd, hnone a ha k hk]
    · have hshown := h.tended.shown a
      rw [← shown_congr hobj htrie, ha] at hshown
      rw [htrie]
      exact hshown.1 k hk
  refine ⟨fun k hk => ?_, ⟨⟨rfl, fun a => ?_⟩, fun k hk a o ho => ?_⟩⟩
  · funext a
    rcases hat a with hs | ⟨hs, hzero⟩
    · rw [amount, hs, amount]
    · rw [amount_of_none hs, hzero k hk]
  · cases hs' : db'.shown a with
    | none =>
      refine ⟨hstored a hs', fun _ hn => ?_⟩
      unfold HasNonce at hn
      rw [view_nonce, hs'] at hn
      exact absurd hn (by decide)
    | some =>
      rcases hat a with hs | ⟨hs, -⟩
      · have hshown := h.tended.shown a
        rw [← hs, hs'] at hshown
        refine ⟨hshown.1, hshown.2.1, fun hx => ?_⟩
        unfold HasNonce
        rw [view_nonce, hs, ← view_nonce]
        exact hshown.2.2 hx
      · cases hs'.symm.trans hs
  · rcases finalise_at hf a with ⟨-, slot, slot', hslot, hslot', hfin⟩ | ⟨-, hobj, -⟩
    · cases ho.symm.trans hslot'
      rcases finaliseSlot_cases hfin with ⟨hrem, -, heq⟩ | ⟨-, heq, -⟩
      · cases slot with
        | live =>
          cases heq
          have hzero := h.amount_removed hk (get_live hslot) hrem
          rwa [amount_of_get (get_live hslot)] at hzero
        | deleted o' =>
          cases heq
          exact h.gone k hk a o' hslot
      · subst heq
        exact h.gone k hk a o hslot
    · exact h.gone k hk a o (hobj ▸ ho)

end Fit

end GoAoa.VM
