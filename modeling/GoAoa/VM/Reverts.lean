import GoAoa.State.Undo
import GoAoa.VM.GasCost
import GoAoa.VM.Walk

/-!
# Operations that can be taken back

Which operations of the state a revert takes back, for each `Likeness`, and that the machine makes
no others: by balance it takes back whatever code does, as long as votes leave the stored list
alone. The rules are those of the Epiphron block.
-/

namespace GoAoa.VM

open State State.StateDB Semantics Option StateDB Assets

variable {L : Likeness} {g : Growth} {db db' s t : StateDB} {a : Address}

/-- The asset list an operation on `a` works on. -/
def assetsOf (db : StateDB) (a : Address) : Assets := (db.getOrNewStateObject a).2.data.assetList

/-- When the journal entry of an operation leads back to what was shown before. The description of
an asset has none. -/
def Allows (L : Likeness) (g : Growth) : OpPred
  | .addAssetBalance a asset amount, db => L.addable (assetsOf db a) ⟨asset, amount⟩
  | .subAssetBalance a asset amount, db => L.subtractable (assetsOf db a) ⟨asset, amount⟩
  | .setAssetData .., _ => ∀ x y, L.data x y
  | .vote user votes delegateList _, db => KeepsVoteList g delegateList user votes db
  | _, _ => True

/-! ## One operation -/

theorem undoable_made (hg : Grounded db) (o : StateObject) :
    Undoable L db ((db.record (db.createEntry a)).write a o) :=
  undoable_create hg rfl rfl rfl rfl fun b hb => by rw [shown_write, if_neg hb]; rfl

/-- **An operation that is allowed can be undone.** -/
theorem undoable_exec {o : Op} {x : Ans o} (hg : Grounded db) (ho : Allows L g o db)
    (hx : exec g o db = some (x, db')) : Undoable L db db' := by
  cases executed hx with
  | idle => exact .refl L db
  | account | object => exact undoable_made hg _
  | refund => exact .single rfl trivial rfl ⟨rfl, fun _ => .refl L _, rfl, rfl⟩
  | @log l =>
    have hundo : (db.addLog l).undo (.addLog db.thash) = some { db.addLog l with
          logs := Function.update (db.addLog l).logs db.thash ((db.addLog l).logs db.thash).dropLast
          logSize := u64 ((db.addLog l).logSize - 1) } := by
      exact if_neg (by simp [addLog])
    refine .single rfl trivial hundo ⟨rfl, fun _ => .refl L _, ?_, rfl⟩
    funext h
    by_cases hh : h = db.thash
    · subst hh; simp [addLog]
    · simp [addLog, hh]
  | edit writes =>
    refine undoable_edit hg fun w hf => ?_
    cases writes _ w hf with
    | addAsset => exact ho
    | subAsset hsome => exact ⟨ho, hsome⟩
    | _ => trivial
  | @describe a data ob get =>
    refine .of_alike rfl (.replace get ?_ ⟨rfl, rfl, rfl⟩ fun b => shown_write db a b _)
    exact { Likeness.Accounts.refl L ob.data with data := ho _ _ }
  | vote run => exact undoable_vote hg ho run

theorem grounded_exec {o : Op} {x : Ans o} (hg : Grounded db) (hx : exec g o db = some (x, db')) :
    Grounded db' := by
  cases executed hx with
  | idle | refund | log => exact hg
  | account | object => exact (hg.record _).write
  | edit => exact hg.edit _
  | describe => exact hg.write
  | vote run => exact vote_rule run (fun _ e _ _ _ => hg.setVoteCells e.prev) fun _ f ht _ => ht.edit f

/-! ## What the machine does -/

/-- No account owes an asset. -/
def OwesNothing (db : StateDB) : Prop := ∀ a d s, db.shown a = some (d, s) → d.assetList.Nonneg

theorem OwesNothing.assetsOf (h : OwesNothing db) (a : Address) : (assetsOf db a).Nonneg := by
  unfold VM.assetsOf
  rw [(getOrNew_shown db a).1]
  cases hx : db.shown a with
  | none => exact Nonneg.empty
  | some x => exact h a x.1 x.2 hx

theorem OwesNothing.of_alike (h : OwesNothing s) (halike : Alike .byBalance s t) : OwesNothing t := by
  intro a d f hx
  have hshow := halike.shown a
  rw [hx] at hshow
  generalize hy : s.shown a = y at hshow
  cases hshow with
  | some _ hd =>
    have hnon := h a _ _ hy
    rcases hd.assets with heq | ⟨-, h', -⟩
    · rwa [← heq]
    · exact h'

section

variable (h : OwesNothing db)
include h

theorem OwesNothing.edit {f : Writer}
    (hf : ∀ o w, f o = some w → o.data.assetList.Nonneg → (w.apply o).data.assetList.Nonneg) :
    OwesNothing (db.edit a f) := by
  intro b d s hx
  rw [shown_edit] at hx
  split at hx
  · cases hx
    have hold := h.assetsOf a
    unfold edited
    cases hw : f (db.getOrNewStateObject a).2 with
    | none => exact hold
    | some w => exact hf _ w hw hold
  · exact h b d s hx

theorem OwesNothing.made {o : StateObject} (ho : o.data.assetList.Nonneg) :
    OwesNothing ((db.record (db.createEntry a)).write a o) := by
  intro b d s hx
  rw [shown_write] at hx
  split at hx
  · cases hx; exact ho
  · exact h b d s hx

theorem OwesNothing.setVoteCells (cells : Slice Address) :
    OwesNothing (db.setVoteCells a cells) := by
  intro b d s hx
  rw [shown_setVoteCells] at hx
  split at hx
  · obtain ⟨y, hy, heq⟩ := map_eq_some_iff.1 hx
    cases heq
    exact h a y.1 y.2 hy
  · exact h b d s hx

theorem OwesNothing.exec {V : Address → Prop} {W : OpPred} {o : Op} {x : Ans o}
    (hg : Guard V W o db) (hx : exec g o db = some (x, db')) :
    OwesNothing db' := by
  cases executed hx with
  | idle | refund | log => exact h
  | account | object => exact h.made Nonneg.empty
  | edit writes =>
    refine h.edit fun ob w hf hold => ?_
    cases writes ob w hf with
    | addAsset => exact hold.addAsset hg
    | subAsset => exact hold.subtract
    | _ => exact hold
  | @describe a data ob get =>
    intro b d s hx
    rw [shown_write] at hx
    split at hx
    · cases hx; exact h a ob.data ob.suicided (shown_of_get db a get)
    · exact h b d s hx
  | vote run =>
    refine vote_rule run (fun _ e _ _ _ => h.setVoteCells e.prev) fun t f ht hf => ?_
    refine ht.edit fun ob w hw hold => ?_
    rcases hf ob w hw with rfl | ⟨v, -, rfl⟩
    · exact hold
    · cases v <;> exact hold

end

structure Sane (db : StateDB) : Prop where
  grounded : Grounded db
  owes : OwesNothing db

theorem Sane.of_alike (h : Sane s) (halike : Alike .byBalance s t) : Sane t :=
  ⟨h.grounded.of_alike halike, h.owes.of_alike halike⟩

theorem Sane.snapshot (h : Sane s) : Sane s.snapshot.2 := ⟨h.grounded, h.owes⟩

theorem Sane.createAccount (h : Sane s) (a : Address) : Sane (s.createAccount a) :=
  ⟨(h.grounded.record _).write, h.owes.made Nonneg.empty⟩

theorem sane_new (trie : Trie) : Sane (.new trie) := by
  constructor
  · intro a ha
    rw [shown_new] at ha
    exact map_eq_none_iff.1 ha
  · intro a d s hx
    rw [shown_new] at hx
    obtain ⟨st, -, heq⟩ := map_eq_some_iff.1 hx
    cases heq
    exact st.nonneg

theorem allows_of_guard {V : Address → Prop} {W : OpPred} {o : Op}
    (hW : ∀ {user votes dl m db}, W (.vote user votes dl m) db → KeepsVoteList g dl user votes db)
    (h : OwesNothing db) (hg : Guard V W o db) : Allows .byBalance g o db := by
  cases o with
  | addAssetBalance a | subAssetBalance a => exact ⟨h.assetsOf a, hg⟩
  | setAssetData => exact fun _ _ => trivial
  | vote => exact hW hg
  | _ => trivial

/-- Votes leave the stored lists alone. -/
def KeepsLists (g : Growth) : OpPred
  | .vote user votes delegateList _, db => KeepsVoteList g delegateList user votes db
  | _, _ => True

/-- **What the machine does is taken back**, compared by balance. -/
theorem keeps_sane (g : Growth) (V : Address → Prop) :
    (semantics g true).Keeps (Guard V (KeepsLists g)) Sane (Undoable .byBalance) where
  refl := Undoable.refl _
  trans := Undoable.trans
  exec h ho hx := ⟨⟨grounded_exec h.grounded hx, h.owes.exec ho hx⟩,
      undoable_exec h.grounded (allows_of_guard (fun hW => hW) h.owes ho) hx⟩
  snapshot h := ⟨⟨h.grounded, h.owes⟩, [], .snapshot _, .nil (.of_shown rfl (fun _ => rfl) rfl rfl)⟩
  revert h _ hu hr := ⟨h.of_alike (hu.revert hr).1, (hu.revert hr).2⟩

/-! ## What is read -/

structure SameReading (d d' : Account) : Prop where
  nonce : d'.nonce = d.nonce
  balance : d'.balance = d.balance
  storage : d'.storage = d.storage
  code : d'.code = d.code
  lockBalance : d'.lockBalance.getD 0 = d.lockBalance.getD 0
  voteList : d'.voteList.view = d.voteList.view
  assets : ∀ id, d'.assetList.balanceOf id = d.assetList.balanceOf id

theorem Likeness.Accounts.sameReading {d d' : Account} (h : Likeness.byBalance.Accounts d d') :
    SameReading d d' := by
  refine ⟨h.nonce, h.balance, h.storage, h.code, h.lockBalance, h.voteList, fun id => ?_⟩
  rcases h.assets with heq | ⟨-, -, heq⟩
  · rw [heq]
  · exact heq id

theorem SameReading.refl (d : Account) : SameReading d d :=
  ⟨rfl, rfl, rfl, rfl, rfl, rfl, fun _ => rfl⟩

theorem SameReading.trans {d d' d'' : Account} (h : SameReading d d') (h' : SameReading d' d'') :
    SameReading d d'' :=
  ⟨h'.nonce.trans h.nonce, h'.balance.trans h.balance, h'.storage.trans h.storage,
    h'.code.trans h.code, h'.lockBalance.trans h.lockBalance, h'.voteList.trans h.voteList,
    fun id => (h'.assets id).trans (h.assets id)⟩

theorem sameReading_of_alike (h : Alike .byBalance s t) (a : Address) :
    SameReading (reading s a) (reading t a) := by
  unfold reading
  have hshow := h.shown a
  cases hx : s.shown a with
  | none =>
    rw [hx] at hshow
    rw [hshow.of_none]
    exact .refl _
  | some =>
    rw [hx] at hshow
    obtain ⟨d', hy, hd⟩ := hshow.of_some
    rw [hy]
    exact Likeness.Accounts.sameReading hd

end GoAoa.VM
