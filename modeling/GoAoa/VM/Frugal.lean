import GoAoa.VM.Walk

/-!
# Accounts that only their key spends

An account without code at an address that no contract gets loses money by its own transactions
only. `Frugal V S` is the guard: of the accounts in `V` only those in `S` are paying. What it keeps
is a floor under the balances of the others.
-/

namespace GoAoa.VM

open State State.StateDB Semantics

/-- The accounts in `V` are not replaced, run no code, and pay only if they are in `S`. -/
def Frugal (V S : Address → Prop) : OpPred
  | .createAccount a, _ => ¬ V a
  | .createObject a, _ => ¬ V a
  | .setCode a _, _ => ¬ V a
  | .suicide a, _ => ¬ V a
  | .addBalance _ x, db => 0 ≤ x ∨ ∃ b, ¬ V b ∧ x = (view db).getBalance b
  | .subBalance a x, db => S a ∨ ¬ V a ∧ x ≤ (view db).getBalance a
  | .vote user .., _ => S user
  | _, _ => True

def purse (x : Option Shown) : Int := (x.map fun y => y.1.balance).getD 0

/-- Accounts in `V` are there and have no code, and all but those in `S` have what `floor` says. -/
def Secured (V S : Address → Prop) (floor : Address → Int) (a : Address) (x : Option Shown) :
    Prop :=
  (V a → ∃ d, x = some (d, false) ∧ d.code = []) ∧ (¬ S a → floor a ≤ purse x)

section

variable {V S : Address → Prop} {floor : Address → Int} {T : Trie}
  {db db' : StateDB} {a : Address} {d : Account} {s : Bool} {g : Growth} {ep : Bool}

theorem secured_some : Secured V S floor a (some (d, s)) ↔
    (V a → s = false ∧ d.code = []) ∧ (¬ S a → floor a ≤ d.balance) := by
  refine and_congr_left fun _ => forall_congr' fun _ => ⟨?_, fun h => ⟨d, by rw [h.1], h.2⟩⟩
  rintro ⟨d', heq, hc⟩
  cases heq
  exact ⟨rfl, hc⟩

/-- What a floor has to be: none for accounts that code may spend. -/
structure Floor (V S : Address → Prop) (floor : Address → Int) : Prop where
  payers : ∀ a, S a → V a
  others : ∀ a, ¬ V a → floor a = 0

variable (hF : Floor V S floor)

include hF

/-- An account outside `V` that shows a balance that is not negative. -/
theorem Floor.outside {x : Option Shown} (hV : ¬ V a) (hx : 0 ≤ purse x) : Secured V S floor a x :=
  ⟨fun h => absurd h hV, fun _ => by rw [hF.others a hV]; exact hx⟩

theorem Floor.nonneg {x : Option Shown} (hV : ¬ V a) (h : Secured V S floor a x) : 0 ≤ purse x := by
  have := h.2 fun hS => hV (hF.payers a hS)
  rwa [hF.others a hV] at this

theorem Floor.stored (hV : ¬ V a) : Secured V S floor a ((T a).map fun s => (s.decode, false)) := by
  refine hF.outside hV ?_
  cases T a with
  | none => exact Int.le_refl 0
  | some => exact Int.natCast_nonneg _

theorem Floor.edit (h : Holds T (Secured V S floor) db) {f : Writer}
    (hw : ∀ w, f (db.getOrNewStateObject a).2 = some w →
      Secured V S floor a (some ((db.getOrNewStateObject a).2.data,
        (db.getOrNewStateObject a).2.suicided)) →
      Secured V S floor a (some ((w.apply (db.getOrNewStateObject a).2).data,
          (w.apply (db.getOrNewStateObject a).2).suicided)) ∧
        Restores T (Secured V S floor) (w.entry a (db.getOrNewStateObject a).2)) :
    Carries T (Secured V S floor) db (db.edit a f) := by
  refine h.edit (fun hnone => ?_) hw
  have hshown := h.shown a
  rw [StateDB.shown, hnone] at hshown
  have hV : ¬ V a := fun hV => by
    obtain ⟨d, heq, -⟩ := hshown.1 hV
    cases heq
  exact ⟨hF.stored hV, hF.outside hV (Int.le_refl 0)⟩

omit hF in
theorem secured_balance {o : StateObject} {v : Int}
    (h : Secured V S floor a (some (o.data, o.suicided))) (hv : ¬ S a → floor a ≤ v) :
    Secured V S floor a (some (((Write.field (.balance v)).apply o).data, o.suicided)) ∧
      Restores T (Secured V S floor) ((Write.field (.balance v)).entry a o) := by
  have ho := secured_some.1 h
  exact ⟨secured_some.2 ⟨ho.1, hv⟩, fun d s hd =>
    secured_some.2 ⟨(secured_some.1 hd).1, ho.2⟩⟩

omit hF in
theorem secured_same {d' : Account} (h : Secured V S floor a (some (d, s)))
    (hb : d'.balance = d.balance) (hc : d'.code = d.code) : Secured V S floor a (some (d', s)) := by
  rw [secured_some, hb, hc]
  exact secured_some.1 h

theorem Floor.vote {user : Address} {votes : List Vote} {dl : Option (List Address)} {m : Int}
    {ok : Bool} (hS : S user) (h : Holds T (Secured V S floor) db)
    (hx : db.vote g m dl user votes = some (ok, db')) :
    Carries T (Secured V S floor) db db' := by
  refine h.vote (fun v hv hP => ?_) (fun hnone => ?_) hx
  · have hP := (secured_some.1 hP).1
    refine secured_some.2 ⟨fun hV => ?_, absurd hS⟩
    cases v <;> first | exact hP hV | cases hv
  · obtain ⟨d, heq, -⟩ := hnone.1 (hF.payers user hS)
    cases heq

/-- **One call.** -/
theorem Floor.exec {o : Op} {x : Ans o} (h : Holds T (Secured V S floor) db)
    (hg : Frugal V S o db) (hx : exec g o db = some (x, db')) :
    Carries T (Secured V S floor) db db' := by
  cases executed hx with
  | idle => exact ⟨h, .refl db⟩
  | refund | log => exact ⟨h.of_objects rfl rfl, .of_append rfl trivial⟩
  | @account a =>
    have hpos : 0 ≤ ((db.getStateObject a).map (·.data.balance)).getD 0 := by
      have := hF.nonneg hg (h.shown a)
      rwa [purse, StateDB.shown, Option.map_map] at this
    exact h.create (fun _ => hF.stored hg) (hF.outside hg hpos)
  | object => exact h.create (fun _ => hF.stored hg) (hF.outside hg (Int.le_refl 0))
  | @edit _ a f writes =>
    refine hF.edit h fun w hf hPo => ?_
    cases writes _ w hf with
    | touch => exact ⟨hPo, trivial⟩
    | @addBalance _ _ n =>
      have hpos : 0 ≤ n := by
        rcases hg with hpos | ⟨b, hb, rfl⟩
        · exact hpos
        · rw [view_balance]
          exact hF.nonneg hb (h.shown b)
      refine secured_balance hPo fun hS => ?_
      have hfloor := hPo.2 hS
      have : floor a ≤ (db.getOrNewStateObject a).2.data.balance := hfloor
      omega
    | subBalance =>
      refine secured_balance hPo fun hS => ?_
      obtain ⟨hV, hle⟩ := hg.resolve_left hS
      rw [hF.others a hV, balance_getOrNew]
      omega
    | addAsset | subAsset =>
      exact ⟨secured_same hPo rfl rfl, fun _ ho => secured_same ho rfl rfl⟩
    | nonce | storage => exact ⟨secured_same hPo rfl rfl, fun d s hd => secured_same hd rfl rfl⟩
    | code =>
      have hpos := hF.nonneg hg hPo
      refine ⟨hF.outside hg hpos, fun d s hd => ?_⟩
      have hpos' := hF.nonneg hg hd
      exact hF.outside hg hpos'
    | suicide =>
      have hpos := hF.nonneg hg hPo
      exact ⟨hF.outside hg (Int.le_refl 0), fun d s hd => hF.outside hg hpos⟩
  | @describe a data ob get =>
    have hPo := h.shown a
    rw [shown_of_get db a get] at hPo
    have ho := secured_some.1 hPo
    exact ⟨h.write (secured_some.2 ho), .of_journal rfl⟩
  | vote run => exact hF.vote hg h run

/-- **The machine keeps the floor**: `Frugal` is a discipline if no contract gets an address
in `V`. -/
theorem Floor.discipline {createAddress : Address → Nat → Address}
    (hfree : ∀ a n, ¬ V (createAddress a n)) :
    Discipline g ep createAddress V S (Frugal V S) (Holds T (Secured V S floor)) where
  steps h hs := ((keeps_of_exec hF.exec).steps hs h).1
  code {db a} h hV := by
    obtain ⟨d, heq, hc⟩ := (h.shown a).1 hV
    rw [view_code, heq]
    exact hc
  present {db a} h hV := by
    obtain ⟨d, heq, -⟩ := (h.shown a).1 hV
    rw [view_exist, heq]
    rfl
  vacant _ _ _ := hfree _ _
  idle {_ o} ho := by
    cases o <;> trivial
  createAccount _ _ hV := hV
  addBalance hx := .inl hx
  bequest hV := .inr ⟨_, hV, rfl⟩
  subBalance {_ a _} hspend _ hle := by
    by_cases hV : V a
    · exact .inl (hspend hV)
    · exact .inr ⟨hV, hle⟩
  addAssetBalance _ := trivial
  subAssetBalance _ := trivial
  setNonce _ := trivial
  setCode hV := hV
  suicide hV := hV

end

end GoAoa.VM
