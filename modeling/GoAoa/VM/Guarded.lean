import GoAoa.VM.Evm
import GoAoa.State.Finalise

/-!
# What running code can do to the state

`Guard V W` says under which circumstances the virtual machine makes each call: it never takes
more than an account has, never makes an account over one that has a nonce or code, and never
acts on behalf of an account in `V`. Here `V` is any set of accounts with a nonce and without
code, and `W` says when votes are counted and objects replaced. The machine keeps to this guard
whatever the code is, so every invariant of the guarded calls is one of the machine.
-/

namespace GoAoa.VM

open State State.StateDB

/-- When an operation is called. -/
def Guard (V : Address → Prop) (W : OpPred) : OpPred
  | .view, _ => True
  | .createAccount a, db => (view db).getNonce a = 0 ∧ (view db).getCode a = [] ∧ ¬ V a
  | .createObject a, db => ¬ V a ∧ W (.createObject a) db
  | .addBalance _ amount, db => 0 ≤ amount ∨ ∃ b, amount = (view db).getBalance b
  | .subBalance a amount, db => 0 ≤ amount ∧ amount ≤ (view db).getBalance a
  | .addAssetBalance _ _ amount, _ => 0 ≤ amount
  | .subAssetBalance _ _ amount, _ => 0 ≤ amount
  | .setAssetData _ _, _ => True
  | .setNonce a nonce, _ => V a → 1 ≤ nonce
  | .setCode a _, _ => ¬ V a
  | .setState _ _ _, _ => True
  | .addRefund _, _ => True
  | .addLog _, _ => True
  | .suicide a, _ => ¬ V a
  | .vote user votes dl m, db => W (.vote user votes dl m) db

/-! ## Properties that do not look at money -/

/-- `P` depends on the nonce, the code, the vote list and the lock only, and it leaves accounts
outside `V` free to be made, replaced and removed. -/
structure Structural (V : Address → Prop) (T : Trie)
    (P : Address → Option Shown → Prop) : Prop where
  money : ∀ {a d s}, P a (some (d, s)) → ∀ balance storage assetList assetData,
    P a (some ({ d with balance := balance, storage := storage, assetList := assetList,
                        assetData := assetData }, s))
  nonce : ∀ {a d s n}, P a (some (d, s)) → (V a → 1 ≤ n) → P a (some ({ d with nonce := n }, s))
  nonce_pos : ∀ {a d s}, V a → P a (some (d, s)) → 1 ≤ d.nonce
  code : ∀ {a d s}, ¬ V a → P a (some (d, s)) → ∀ code s', P a (some ({ d with code := code }, s'))
  blank : ∀ {a}, ¬ V a → ∀ balance, P a (some ({ Account.blank with balance := balance }, false))
  missing : ∀ {a}, V a → ¬ P a none
  back : ∀ {a}, ¬ V a → P a ((T a).map fun s => (s.decode, false))

variable {V : Address → Prop} {W : OpPred} {db db' : StateDB} {a : Address}

section Structural

variable {T : Trie} {P : Address → Option Shown → Prop}

section

variable (hP : Structural V T P)
include hP

theorem Structural.edit (h : Holds T P db) {f : Writer}
    (hw : ∀ o w, f o = some w → P a (some (o.data, o.suicided)) →
      P a (some ((w.apply o).data, (w.apply o).suicided)) ∧ Restores T P (w.entry a o)) :
    Carries T P db (db.edit a f) := by
  refine h.edit (fun hnone => ?_) (hw _)
  have hshown := h.shown a
  rw [StateDB.shown, hnone] at hshown
  have hV : ¬ V a := fun hV => hP.missing hV hshown
  exact ⟨hP.back hV, hP.blank hV 0⟩

theorem Structural.balance {o : StateObject} {v : Int} (h : P a (some (o.data, o.suicided))) :
    P a (some (((Write.field (.balance v)).apply o).data, o.suicided)) ∧
      Restores T P ((Write.field (.balance v)).entry a o) :=
  ⟨hP.money h v _ _ _, fun _ _ h' => hP.money h' _ _ _ _⟩

theorem Structural.asset {o : StateObject} {x : Asset} {add : Bool}
    (h : P a (some (o.data, o.suicided))) :
    P a (some ((revertAssetBalance x add o).data, o.suicided)) := by
  cases add <;> exact hP.money h _ _ _ _

/-- Every guarded call but a vote keeps a property that does not look at money. -/
theorem Structural.exec
    {g : Growth} (hvote : ∀ {user votes dl m db ok db'}, W (.vote user votes dl m) db →
      Holds T P db → db.vote g m dl user votes = some (ok, db') → Carries T P db db')
    {o : Op} {x : Ans o} (h : Holds T P db) (hg : Guard V W o db)
    (hx : exec g o db = some (x, db')) : Carries T P db db' := by
  cases executed hx with
  | idle => exact ⟨h, .refl db⟩
  | refund | log => exact ⟨h.of_objects rfl rfl, .of_append rfl trivial⟩
  | account => exact h.create (fun _ => hP.back hg.2.2) (hP.blank hg.2.2 _)
  | object => exact h.create (fun _ => hP.back hg.1) (hP.blank hg.1 0)
  | @edit _ a f writes =>
    refine hP.edit h fun ob w hf hPo => ?_
    cases writes ob w hf with
    | touch => exact ⟨hPo, trivial⟩
    | addBalance | subBalance => exact hP.balance hPo
    | addAsset | subAsset =>
      exact ⟨hP.money hPo _ _ _ _, fun o' hPo' => hP.asset hPo'⟩
    | nonce => exact ⟨hP.nonce hPo hg, fun d s hd => hP.nonce hd fun hV => hP.nonce_pos hV hPo⟩
    | code => exact ⟨hP.code hg hPo _ _, fun d s hd => hP.code hg hd _ s⟩
    | storage => exact ⟨hP.money hPo _ _ _ _, fun d s hd => hP.money hd _ _ _ _⟩
    | suicide =>
      exact ⟨hP.money (hP.code hg hPo ob.data.code true) 0 _ _ _,
        fun d s hd => hP.money (hP.code hg hd d.code ob.suicided) _ _ _ _⟩
  | @describe a data ob get =>
    have hPo := h.shown a
    rw [shown_of_get db a get] at hPo
    exact ⟨h.write (hP.money hPo _ _ _ data), .of_journal rfl⟩
  | vote run => exact hvote hg h run

end

theorem keeps_of_exec {g : Growth} {ep : Bool} {G : OpPred}
    (hexec : ∀ {db db' o} {x : Ans o}, Holds T P db → G o db →
      exec g o db = some (x, db') → Carries T P db db') :
    (semantics g ep).Keeps G (Holds T P) (Grew T P) where
  refl := Grew.refl
  trans := Grew.trans
  exec := hexec
  snapshot h := h.snapshot
  revert _ ht hg hr := ht.revert hg hr

end Structural

/-! ## Objects that were removed -/

variable {g : Growth}

theorem removesNone_exec {o : Op} {x : Ans o}
    (hx : exec g o db = some (x, db')) : RemovesNone db db' := by
  cases executed hx with
  | idle => exact .refl db
  | refund | log => exact .of_objects rfl
  | account | object | describe => exact .live rfl
  | edit => exact .edit _ _ _
  | vote run => exact .vote run

theorem removesNone_steps {ep : Bool} {G : OpPred}
    (hs : (semantics g ep).Steps G db db') : RemovesNone db db' := by
  induction hs with
  | refl => exact .refl _
  | exec _ _ hx ih => exact ih.trans (removesNone_exec hx)
  | keep _ _ ih ihb => exact ih.trans (.trans (.of_objects rfl) ihb)
  | revert _ _ hr ih ihb => exact ih.trans (.trans (.of_objects rfl) (ihb.trans (.revert hr)))

theorem trie_exec {o : Op} {x : Ans o} (hx : exec g o db = some (x, db')) : db'.trie = db.trie := by
  cases executed hx with
  | edit => exact trie_edit _ _ _
  | vote run => exact trie_vote run
  | _ => rfl

theorem trie_steps {ep : Bool} {G : OpPred}
    (hs : (semantics g ep).Steps G db db') : db'.trie = db.trie := by
  induction hs with
  | refl => rfl
  | exec _ _ hx ih => exact (trie_exec hx).trans ih
  | keep _ _ ih ihb => exact ihb.trans ih
  | revert _ _ hr ih ihb => exact (trie_revert hr).trans (ihb.trans ih)

/-- **Guarded calls keep a property of all accounts** that does not look at money. -/
theorem everywhere_steps {R : Address → Account → Prop}
    {ep : Bool} (hP : Structural (fun _ => False) db.trie (Shows R))
    (hvote : ∀ {user votes dl m t ok t'}, W (.vote user votes dl m) t →
      Holds db.trie (Shows R) t → t.vote g m dl user votes = some (ok, t') →
      Carries db.trie (Shows R) t t')
    (h : Everywhere R db) (hs : (semantics g ep).Steps (Guard (fun _ => False) W) db db') :
    Everywhere R db' :=
  h.of_holds ((keeps_of_exec (hP.exec hvote)).steps hs h.holds).1 (removesNone_steps hs)

/-! ## Protected accounts -/

def Protects (V : Address → Prop) (a : Address) (x : Option Shown) : Prop :=
  V a → ∃ d s, x = some (d, s) ∧ 1 ≤ d.nonce ∧ d.code = []

def Protected (V : Address → Prop) (db : StateDB) : Prop := Holds db.trie (Protects V) db

section Protected

variable {g : Growth} {ep : Bool}

theorem structural_protects (V : Address → Prop) (T : Trie) : Structural V T (Protects V) where
  money h _ _ _ _ hV := by
    obtain ⟨d, s, heq, hn, hc⟩ := h hV
    cases heq
    exact ⟨_, _, rfl, hn, hc⟩
  nonce h hn hV := by
    obtain ⟨d, s, heq, -, hc⟩ := h hV
    cases heq
    exact ⟨_, _, rfl, hn hV, hc⟩
  nonce_pos hV h := by
    obtain ⟨d, s, heq, hn, -⟩ := h hV
    cases heq
    exact hn
  code hV _ _ _ hV' := absurd hV' hV
  blank hV _ hV' := absurd hV' hV
  missing hV h := by
    obtain ⟨d, s, heq, -⟩ := h hV
    cases heq
  back hV hV' := absurd hV' hV

theorem Protects.vote {T : Trie} {user : Address} {votes : List Vote}
    {dl : Option (List Address)} {m : Int} {ok : Bool} (h : Holds T (Protects V) db)
    (hx : db.vote g m dl user votes = some (ok, db')) :
    Carries T (Protects V) db db' := by
  refine h.vote (fun v hv hP hV => ?_) (fun hnone => ?_) hx
  · obtain ⟨d, s, heq, hn, hc⟩ := hP hV
    cases heq
    cases v <;> first | exact ⟨_, _, rfl, hn, hc⟩ | cases hv
  · have hV : ¬ V user := fun hV => by
      obtain ⟨d, s, heq, -⟩ := hnone hV
      cases heq
    exact ⟨fun hV' => absurd hV' hV, fun hV' => absurd hV' hV⟩

theorem protected_none (db : StateDB) : Protected (fun _ => False) db := ⟨rfl, fun _ hV => hV.elim⟩

theorem Protected.steps (h : Protected V db) (hs : (semantics g ep).Steps (Guard V W) db db') :
    Protected V db' ∧ db'.trie = db.trie := by
  have hk : (semantics g ep).Keeps (Guard V W) (Holds db.trie (Protects V))
      (Grew db.trie (Protects V)) :=
    keeps_of_exec fun h hg hx =>
      (structural_protects V db.trie).exec (fun _ hI hv => Protects.vote hI hv) h hg hx
  have hI := (hk.steps hs h).1
  refine ⟨?_, hI.trie⟩
  unfold Protected
  rw [hI.trie]
  exact hI

theorem Protected.nonce_code (h : Protected V db) (hV : V a) :
    1 ≤ (view db).getNonce a ∧ (view db).getCode a = [] := by
  obtain ⟨d, s, heq, hn, hc⟩ := h.shown a hV
  obtain ⟨o, ho, hx⟩ := shown_eq_some db a heq
  cases hx
  have hacc : (view db).account a = some (visible o) := by
    show (db.getStateObject a).map visible = _
    rw [ho]; rfl
  simp only [View.getNonce, View.getCode, hacc]
  exact ⟨hn, hc⟩

end Protected

end GoAoa.VM
