import GoAoa.State.Pointwise
import GoAoa.Lib.Measure
import Mathlib.Data.FinEnum

/-!
# What accounts hold

The AOA an account can spend, the AOA it has locked, and its assets, as one family of amounts. A
write changes at most one amount of one account, and so does undoing its journal entry; so the
amounts after a revert are computed from the amounts before it (`undone_amount`), and changes that
are undone in turn give back what was held (`Rewinds`). The entries must be fair: no account is
brought back from the dead, and no asset entry has a negative amount. Before the Epiphron block
entries of assets are not undone; then a revert only takes back the accounts that were made, with
what they hold (`sum_undone`).
-/

namespace GoAoa.State

open List Option Function StateDB Account Assets

inductive Holding where
  | balance
  | lock
  | asset (id : Address)
  deriving DecidableEq

namespace Holding

def amount : Holding → Account → Int
  | .balance, d => d.balance
  | .lock, d => d.lockBalance.getD 0
  | .asset id, d => d.assetList.balanceOf id

def written : Holding → Field → Int → Int
  | .balance, .balance v, _ => v
  | .lock, .lockBalance v, _ => v
  | _, _, n => n

def takenBack (h : Holding) (x : Asset) (added : Bool) (n : Int) : Int :=
  if h = .asset x.id then
    if added then if x.balance ≤ n then n - x.balance else n else n + x.balance
  else n

def stored (h : Holding) (t : Option StoredAccount) : Int := (t.map fun s => h.amount s.decode).getD 0

section

variable (h : Holding) (d : Account)

theorem amount_blank (b : Int) :
    h.amount { blank with balance := b } = if h = .balance then b else 0 := by
  cases h <;> rfl

theorem amount_set (v : Field) : h.amount (v.set d) = h.written v (h.amount d) := by
  cases h <;> cases v <;> rfl

theorem written_current (v : Field) :
    h.written (v.current d) (h.written v (h.amount d)) = h.amount d := by
  cases h <;> cases v <;> rfl

theorem amount_addAsset (x : Asset) : h.amount { d with assetList := d.assetList.addAsset x } =
      h.amount d + if h = .asset x.id then x.balance else 0 := by
  cases h with
  | asset id =>
    refine (d.assetList.balanceOf_addAsset x id).trans ?_
    simp [amount]
  | _ => simp [amount]

theorem amount_subAsset {x : Asset} {l : Assets} (hl : d.assetList.subAsset x = some l) :
    h.amount { d with assetList := l } = h.amount d - if h = .asset x.id then x.balance else 0 := by
  cases h with
  | asset id =>
    refine (balanceOf_subAsset hl id).trans ?_
    simp [amount]
  | _ => simp [amount]

theorem amount_revertAssetBalance {x : Asset} (hx : 0 ≤ x.balance) (added : Bool)
    (o : StateObject) :
    h.amount (revertAssetBalance x added o).data = h.takenBack x added (h.amount o.data) := by
  unfold revertAssetBalance takenBack
  cases added with
  | false =>
    refine (h.amount_addAsset o.data x).trans ?_
    split
    · rfl
    · omega
  | true =>
    show h.amount { o.data with assetList := (o.data.assetList.subAsset x).getD _ } = _
    cases hl : o.data.assetList.subAsset x with
    | none =>
      have hlow := lt_of_subAsset_none hx hl
      split
      · rename_i hid
        subst hid
        show o.data.assetList.balanceOf x.id = if _ ≤ o.data.assetList.balanceOf x.id then _ else _
        split
        · show _ = o.data.assetList.balanceOf x.id - x.balance
          omega
        · rfl
      · rfl
    | some =>
      refine (h.amount_subAsset o.data hl).trans ?_
      have hsome : (o.data.assetList.subAsset x).isSome = true := by rw [hl]; rfl
      obtain ⟨b, hb, hle⟩ := (subAsset_isSome _ _).1 hsome
      split
      · rename_i hid
        subst hid
        show _ = if x.balance ≤ o.data.assetList.balanceOf x.id then _ else _
        rw [balanceOf_of_find hb, if_pos hle]
      · omega

end

/-- What undoing an entry does to the amounts of all accounts. -/
def undone (h : Holding) (ep : Bool) (T : Trie) (F : Address → Int) :
    Change → Address → Int
  | .createObject a => update F a (h.stored (T a))
  | .resetObject a prev => update F a (h.amount prev.data)
  | .field a v => update F a (h.written v (F a))
  | .assetBalance a x added => if ep then update F a (h.takenBack x added (F a)) else F
  | _ => F

/-- Whether reverts take back changes of the amount. Those of assets are not taken back before the
Epiphron block. -/
def Journaled (ep : Bool) : Holding → Prop
  | .asset _ => ep = true
  | _ => True

end Holding

/-- Entries that `Holding.undone` describes. -/
def Change.Fair : Change → Prop
  | .suicide .. => False
  | .assetBalance _ x _ => 0 ≤ x.balance
  | _ => True

namespace StateDB

def amount (db : StateDB) (h : Holding) (a : Address) : Int :=
  ((db.shown a).map fun x => h.amount x.1).getD 0

variable {db db' : StateDB} {h : Holding} {a : Address} {o : StateObject}

theorem amount_of_get (ho : db.getStateObject a = some o) : db.amount h a = h.amount o.data := by
  rw [amount, shown_of_get db a ho]
  rfl

theorem amount_of_none (hs : db.shown a = none) : db.amount h a = 0 := by
  rw [amount, hs]
  rfl

theorem amount_update {x : Account × Bool}
    (hs : ∀ b, db'.shown b = if b = a then some x else db.shown b) :
    db'.amount h = update (db.amount h) a (h.amount x.1) := by
  funext b
  rw [amount, hs]
  by_cases hb : b = a
  · rw [if_pos hb, hb, update_self]
    rfl
  · rw [if_neg hb, update_of_ne hb]
    rfl

theorem amount_write (db : StateDB) (a : Address) (o : StateObject) :
    (db.write a o).amount h = update (db.amount h) a (h.amount o.data) :=
  amount_update fun b => shown_write db a b o

theorem amount_setStateObject (db : StateDB) (a : Address) (o : StateObject) :
    (db.setStateObject a o).amount h = update (db.amount h) a (h.amount o.data) :=
  amount_update fun b => shown_setStateObject db a b o

theorem amount_getOrNew (db : StateDB) (a : Address) :
    h.amount (db.getOrNewStateObject a).2.data = db.amount h a := by
  rw [(getOrNew_shown db a).1, amount]
  cases db.shown a with
  | none => cases h <;> rfl
  | some => rfl

theorem amount_edit (db : StateDB) (a : Address) (f : Writer) :
    (db.edit a f).amount h = update (db.amount h) a (h.amount (db.edited a f).data) :=
  amount_update fun b => shown_edit db a b f

variable {f : Writer}

theorem amount_edit_of_eq (hf : ∀ o w, f o = some w → h.amount (w.apply o).data = h.amount o.data) :
    (db.edit a f).amount h = db.amount h := by
  have hsame : h.amount (db.edited a f).data = db.amount h a := by
    rw [← amount_getOrNew, edited]
    cases hw : f (db.getOrNewStateObject a).2 with
    | none => rfl
    | some => exact hf _ _ hw
  rw [amount_edit, hsame, update_eq_self]

/-- **Undoing a fair entry.** -/
theorem undone_amount {ep : Bool} {e : Change} (he : e.Fair)
    (hu : db.undoUnlessAsset ep e = some db') :
    db'.amount h = h.undone ep db.trie (db.amount h) e := by
  unfold undoUnlessAsset at hu
  split at hu
  · cases hu
    rfl
  rename_i hasset
  cases e with
  | createObject a =>
    funext b
    rw [amount, shown_undo_createObject hu]
    show _ = update (db.amount h) a (h.stored (db.trie a)) b
    by_cases hb : b = a
    · rw [if_pos hb, hb, update_self, Holding.stored, Option.map_map]
      rfl
    · rw [if_neg hb, update_of_ne hb]
      rfl
  | resetObject a prev =>
    cases hu
    exact amount_setStateObject db a prev
  | suicide => exact he.elim
  | field =>
    obtain ⟨o, ho, rfl⟩ := map_eq_some_iff.1 hu
    rw [amount_write, h.amount_set, ← amount_of_get ho]
    rfl
  | refund => cases hu; rfl
  | addLog =>
    simp only [undo] at hu
    split at hu
    · cases hu
    · cases hu; rfl
  | touch a prev =>
    simp only [undo] at hu
    split at hu
    · obtain ⟨o, ho, rfl⟩ := map_eq_some_iff.1 hu
      have hset : (db.setStateObject a { o with touched := prev }).amount h = db.amount h := by
        rw [amount_setStateObject, ← amount_of_get ho, update_eq_self]
      split <;> exact hset
    · cases hu; rfl
  | assetBalance =>
    have hep : ep = true := by
      cases ep with
      | true => rfl
      | false => exact (hasset _ _ _ rfl rfl).elim
    obtain ⟨o, ho, rfl⟩ := map_eq_some_iff.1 hu
    rw [amount_write, h.amount_revertAssetBalance he, ← amount_of_get ho, Holding.undone, if_pos hep]

/-! ## Changes that can be taken back -/

/-- The journal has grown by fair entries, and undoing them gives back what was held. -/
structure Rewinds (h : Holding) (ep : Bool) (db db' : StateDB) : Prop where
  trie : db'.trie = db.trie
  entries : ∃ es, db.journal.Extends db'.journal es ∧ (∀ e ∈ es, e.Fair) ∧
    (h.Journaled ep → es.foldl (h.undone ep db.trie) (db'.amount h) = db.amount h)

namespace Rewinds

variable {ep : Bool} {db'' : StateDB}

theorem of_journal (htrie : db'.trie = db.trie) (hj : db.journal.Extends db'.journal [])
    (hamount : db'.amount h = db.amount h) : Rewinds h ep db db' :=
  ⟨htrie, [], hj, forall_mem_nil _, fun _ => hamount⟩

theorem refl (db : StateDB) : Rewinds h ep db db := .of_journal rfl (.refl _) rfl

theorem of_append {e : Change} (htrie : db'.trie = db.trie) (hj : db'.journal = db.journal.append e)
    (he : e.Fair) (hamount : h.Journaled ep → h.undone ep db.trie (db'.amount h) e = db.amount h) :
    Rewinds h ep db db' :=
  ⟨htrie, [e], hj ▸ .append _ _, forall_mem_singleton.2 he, hamount⟩

theorem trans (h1 : Rewinds h ep db db') (h2 : Rewinds h ep db' db'') : Rewinds h ep db db'' := by
  obtain ⟨htrie, es, hx, hfair, hback⟩ := h1
  obtain ⟨htrie', es', hx', hfair', hback'⟩ := h2
  refine ⟨htrie'.trans htrie, es' ++ es, hx.trans hx', fun e he => ?_, ?_⟩
  · exact (mem_append.1 he).elim (hfair' e) (hfair e)
  · intro hj
    rw [foldl_append, ← htrie, hback' hj, htrie, hback hj]

theorem undoAll {es : List Change} (hfair : ∀ e ∈ es, e.Fair)
    (hu : es.foldlM (undoUnlessAsset ep) db = some db') :
    db'.amount h = es.foldl (h.undone ep db.trie) (db.amount h) ∧ db'.trie = db.trie := by
  induction es generalizing db with
  | nil =>
    cases hu
    exact ⟨rfl, rfl⟩
  | cons e es ih =>
    obtain ⟨db1, h1, hu⟩ := bind_eq_some_iff.1 hu
    obtain ⟨he, hes⟩ := forall_mem_cons.1 hfair
    have htrie := (takesBack h1).trie
    obtain ⟨hamount, htrie'⟩ := ih hes hu
    rw [hamount, undone_amount he h1, htrie]
    exact ⟨rfl, htrie'.trans htrie⟩

theorem amount_revert (hr : Rewinds h ep db.snapshot.2 db')
    (hu : db'.revertToSnapshot ep db.snapshot.1 = some db'') :
    ∃ es, db.snapshot.2.journal.Extends db'.journal es ∧ db.journal.Extends db''.journal [] ∧
      db''.trie = db.trie ∧ db''.amount h = es.foldl (h.undone ep db.trie) (db'.amount h) := by
  obtain ⟨htrie, es, hx, hfair, -⟩ := hr
  obtain ⟨db1, h1, j, rfl, hext⟩ := revertToSnapshot_eq hx hu
  obtain ⟨hamount, htrie'⟩ := undoAll hfair h1
  refine ⟨es, hx, hext, htrie'.trans htrie, ?_⟩
  rw [htrie] at hamount
  exact hamount

/-- **Reverting to a snapshot gives back what was held at it.** -/
theorem revert (hr : Rewinds h ep db.snapshot.2 db')
    (hu : db'.revertToSnapshot ep db.snapshot.1 = some db'') :
    (h.Journaled ep → db''.amount h = db.amount h) ∧ Rewinds h ep db db'' := by
  obtain ⟨es, hx, hext, htrie, hamount⟩ := hr.amount_revert hu
  obtain ⟨-, es', hx', -, hback⟩ := hr
  obtain rfl := append_cancel_right (hx'.entries.symm.trans hx.entries)
  have hsame : h.Journaled ep → db''.amount h = db.amount h := fun hj => hamount.trans (hback hj)
  exact ⟨hsame, htrie, [], hext, forall_mem_nil _, hsame⟩

/-! ### One change -/

theorem create (hvoid : db.shown a = none → h.stored (db.trie a) = 0) :
    Rewinds h ep db ((db.record (db.createEntry a)).write a o) := by
  have hamount : ((db.record (db.createEntry a)).write a o).amount h =
      update (db.amount h) a (h.amount o.data) := amount_write _ a o
  unfold createEntry at *
  cases hget : db.getStateObject a with
  | none =>
    have hs : db.shown a = none := by rw [shown, hget]; rfl
    rw [hget] at hamount
    refine .of_append rfl rfl trivial fun _ => ?_
    rw [hamount, Holding.undone, update_idem, hvoid hs, ← amount_of_none hs, update_eq_self]
  | some =>
    rw [hget] at hamount
    refine .of_append rfl rfl trivial fun _ => ?_
    rw [hamount, Holding.undone, update_idem, ← amount_of_get hget, update_eq_self]

def CanTakeBack (h : Holding) (d : Account) : Write → Prop
  | .field _ => True
  | .addAsset x => 0 ≤ x.balance ∧ (h = .asset x.id → 0 ≤ h.amount d)
  | .subAsset x => 0 ≤ x.balance ∧ (d.assetList.subAsset x).isSome = true
  | .touch => True
  | .suicide => False

theorem write {w : Write} (ho : db.getStateObject a = some o) (hw : CanTakeBack h o.data w) :
    Rewinds h ep db ((db.record (w.entry a o)).write a (w.apply o)) := by
  have hamount : ((db.record (w.entry a o)).write a (w.apply o)).amount h =
      update (db.amount h) a (h.amount (w.apply o).data) := amount_write _ a _
  -- it is enough to look at the account itself
  have hback : ∀ {n}, n = h.amount o.data →
      update (update (db.amount h) a (h.amount (w.apply o).data)) a n = db.amount h := by
    rintro n rfl
    rw [update_idem, ← amount_of_get ho, update_eq_self]
  cases w with
  | field v =>
    refine .of_append (e := .field a (v.current o.data)) rfl rfl trivial fun _ => ?_
    rw [hamount, Holding.undone, update_self]
    refine hback ?_
    rw [show h.amount ((Write.field v).apply o).data = h.written v (h.amount o.data) from
      h.amount_set o.data v]
    exact h.written_current o.data v
  | touch =>
    refine .of_append (e := .touch a o.touched (!o.onDirty)) rfl rfl trivial fun _ => ?_
    rw [hamount]
    show update (db.amount h) a (h.amount o.data) = _
    rw [← amount_of_get ho, update_eq_self]
  | suicide => exact hw.elim
  | addAsset x =>
    have hnew : h.amount ((Write.addAsset x).apply o).data =
        h.amount o.data + if h = .asset x.id then x.balance else 0 := h.amount_addAsset o.data x
    refine .of_append (e := .assetBalance a x true) rfl rfl hw.1 fun hj => ?_
    rw [hamount, Holding.undone]
    by_cases hid : h = .asset x.id
    · have hpos := hw.2 hid
      obtain rfl : ep = true := by rw [hid] at hj; exact hj
      rw [if_pos rfl, update_self]
      refine hback ?_
      rw [hnew, if_pos hid, Holding.takenBack, if_pos hid, if_pos rfl, if_pos (by omega)]
      omega
    · rw [if_neg hid, Int.add_zero] at hnew
      rw [hnew, update_self, Holding.takenBack, if_neg hid, update_idem,
        ← amount_of_get ho, update_eq_self]
      split <;> rfl
  | subAsset x =>
    obtain ⟨l, hl⟩ := isSome_iff_exists.1 hw.2
    have hnew : h.amount ((Write.subAsset x).apply o).data =
        h.amount o.data - if h = .asset x.id then x.balance else 0 := by
      show h.amount { o.data with assetList := (o.data.assetList.subAsset x).getD _ } = _
      rw [hl]
      exact h.amount_subAsset o.data hl
    refine .of_append (e := .assetBalance a x false) rfl rfl hw.1 fun hj => ?_
    rw [hamount, Holding.undone]
    by_cases hid : h = .asset x.id
    · obtain rfl : ep = true := by rw [hid] at hj; exact hj
      rw [if_pos rfl, update_self]
      refine hback ?_
      rw [hnew, if_pos hid, Holding.takenBack, if_pos hid]
      show h.amount o.data - x.balance + x.balance = _
      omega
    · rw [if_neg hid, Int.sub_zero] at hnew
      rw [hnew, update_self, Holding.takenBack, if_neg hid, update_idem,
        ← amount_of_get ho, update_eq_self]
      split <;> rfl

theorem edit (hvoid : db.shown a = none → h.stored (db.trie a) = 0)
    (hf : ∀ w, f (db.getOrNewStateObject a).2 = some w →
      CanTakeBack h (db.getOrNewStateObject a).2.data w) : Rewinds h ep db (db.edit a f) := by
  refine edit_rule db a (.refl db) (fun _ => .create hvoid) ?_
  rintro t o w rfl ho hw ht
  exact ht.trans (.write ho (hf w hw))

end Rewinds

/-! ## What each change does to the amounts -/

theorem amount_edit_add {n : Int}
    (hf : ∀ o, h.amount (((f o).map fun w => w.apply o).getD o).data = h.amount o.data + n) :
    (db.edit a f).amount h = update (db.amount h) a (db.amount h a + n) := by
  rw [amount_edit, edited, hf, amount_getOrNew]

theorem amount_addBalance (n : Int) : (db.addBalance a n).amount h =
      update (db.amount h) a (db.amount h a + if h = .balance then n else 0) := by
  refine amount_edit_add fun o => ?_
  by_cases hn : n = 0
  · have hzero : (if h = .balance then n else 0) = 0 := by rw [hn, ite_self]
    rw [if_pos hn, hzero, Int.add_zero]
    split <;> rfl
  · rw [if_neg hn]
    cases h <;> simp [Write.apply, Field.set, Holding.amount]

theorem amount_subBalance (n : Int) : (db.subBalance a n).amount h =
      update (db.amount h) a (db.amount h a + if h = .balance then -n else 0) := by
  refine amount_edit_add fun o => ?_
  by_cases hn : n = 0
  · have hzero : (if h = .balance then -n else 0) = 0 := by rw [hn, Int.neg_zero, ite_self]
    rw [if_pos hn, hzero, Int.add_zero]
    rfl
  · rw [if_neg hn]
    cases h <;> simp [Write.apply, Field.set, Holding.amount, Int.sub_eq_add_neg]

theorem amount_addLockBalance {n : Int} (hadd : db.addLockBalance a n = some db') : db'.amount h =
      update (db.amount h) a (db.amount h a + if h = .lock then n else 0) := by
  unfold addLockBalance at hadd
  split at hadd
  · rename_i hn
    have hzero : (if h = .lock then n else 0) = 0 := by rw [hn, ite_self]
    cases hadd
    rw [hzero]
    refine amount_edit_add fun o => ?_
    rw [Int.add_zero]
    split <;> rfl
  · split at hadd
    · cases hadd
    · rename_i lock hlock
      cases hadd
      rw [amount_edit]
      congr 1
      rw [← amount_getOrNew]
      show h.amount (Field.set _ (.lockBalance (lock + n))) = _
      rw [h.amount_set]
      cases h <;> simp [Holding.written, Holding.amount, hlock]

theorem amount_addAssetBalance (id : Address) (n : Int) : (db.addAssetBalance a id n).amount h =
      update (db.amount h) a (db.amount h a + if h = .asset id then n else 0) :=
  amount_edit_add fun o => h.amount_addAsset o.data ⟨id, n⟩

theorem amount_subAssetBalance (id : Address) (n : Int) :
    (db.subAssetBalance a id n).2.amount h = update (db.amount h) a
        (db.amount h a + if h = .asset id ∧ (db.subAssetBalance a id n).1 = true then -n else 0) := by
  show (db.edit a _).amount h = _
  rw [amount_edit]
  congr 1
  rw [← amount_getOrNew, edited]
  show _ = _ + if h = .asset id ∧
    ((db.getOrNewStateObject a).2.data.assetList.subAsset ⟨id, n⟩).isSome = true then -n else 0
  generalize (db.getOrNewStateObject a).2 = o
  by_cases hs : (o.data.assetList.subAsset ⟨id, n⟩).isSome = true
  · obtain ⟨l, hl⟩ := isSome_iff_exists.1 hs
    rw [if_pos hs]
    show h.amount { o.data with assetList := (o.data.assetList.subAsset ⟨id, n⟩).getD _ } = _
    rw [hl]
    refine (h.amount_subAsset o.data hl).trans ?_
    by_cases hid : h = .asset id
    · rw [if_pos hid, if_pos ⟨hid, rfl⟩]; rfl
    · rw [if_neg hid, if_neg fun hc => hid hc.1]; omega
  · rw [if_neg hs, if_neg fun hc => hs hc.2, Int.add_zero]
    rfl

theorem amount_createAccount : (db.createAccount a).amount h =
      update (db.amount h) a (if h = .balance then db.amount h a else 0) := by
  rw [amount_update (shown_createAccount db a), h.amount_blank]
  split
  · rename_i hb
    subst hb
    rfl
  · rfl

theorem amount_createObject : (db.createObject a).amount h = update (db.amount h) a 0 := by
  have hzero : h.amount blank = 0 := by cases h <;> rfl
  rw [createObject, amount_write]
  show update (db.amount h) a (h.amount blank) = _
  rw [hzero]

theorem amount_setVoteCells (cells : Slice Address) :
    (db.setVoteCells a cells).amount h = db.amount h := by
  funext b
  rw [amount, shown_setVoteCells]
  by_cases hb : b = a
  · rw [if_pos hb, hb, amount, Option.map_map]
    cases h <;> rfl
  · rw [if_neg hb, amount]

theorem amount_edit_field
    (hf : ∀ o w, f o = some w → ∃ v : Field, w = .field v ∧ ∀ n, h.written v n = n) :
    (db.edit a f).amount h = db.amount h := by
  refine amount_edit_of_eq fun o w hw => ?_
  obtain ⟨v, rfl, hv⟩ := hf o w hw
  exact (h.amount_set o.data v).trans (hv _)

theorem amount_setVoteList (l : Slice Address) : (db.setVoteList a l).amount h = db.amount h :=
  amount_edit_field fun _ _ hw => ⟨_, (some.inj hw).symm, fun _ => by cases h <;> rfl⟩

theorem amount_setNonce (n : Nat) : (db.setNonce a n).amount h = db.amount h :=
  amount_edit_field fun _ _ hw => ⟨_, (some.inj hw).symm, fun _ => by cases h <;> rfl⟩

theorem amount_setCode (c : Bytes) : (db.setCode a c).amount h = db.amount h :=
  amount_edit_field fun _ _ hw => ⟨_, (some.inj hw).symm, fun _ => by cases h <;> rfl⟩

theorem amount_setState (key value : Hash) : (db.setState a key value).amount h = db.amount h :=
  amount_edit_field fun _ _ hw => ⟨_, (some.inj hw).symm, fun _ => by cases h <;> rfl⟩

theorem amount_setAssetData (data : Bytes) : (db.setAssetData a data).amount h = db.amount h := by
  unfold setAssetData
  split
  · rfl
  · rename_i o ho
    have hsame : h.amount { o.data with assetData := data } = db.amount h a := by
      rw [amount_of_get ho]
      cases h <;> rfl
    rw [amount_write, hsame, update_eq_self]

/-- **A vote moves AOA between the balance and the lock of the voter.** -/
theorem amount_vote {g : Growth} {m : Int} {dl : Option (List Address)} {votes : List Vote}
    {ok : Bool} (hx : db.vote g m dl a votes = some (ok, db')) :
    ∃ diff : Int, ∀ h, db'.amount h = update (db.amount h) a
      (db.amount h a + (if h = .balance then -diff else 0) + if h = .lock then diff else 0) := by
  obtain ⟨d, e, result, -, -, hcases⟩ := vote_cases hx
  rcases hcases with ⟨-, rfl⟩ | ⟨-, diff, lock, db1, -, -, -, hlock, rfl⟩
  · refine ⟨0, fun h => ?_⟩
    rw [amount_setVoteCells, Int.neg_zero, ite_self, ite_self, Int.add_zero, Int.add_zero,
      update_eq_self]
  · refine ⟨diff, fun h => ?_⟩
    rw [amount_setVoteList, amount_addLockBalance hlock, amount_subBalance, amount_setVoteCells,
      update_self, update_idem]

/-! ## Sums over all accounts -/

/-- What a currency is made of: AOA (`none`) can be spent or is locked. -/
def parts : Option Address → List Holding
  | none => [.balance, .lock]
  | some id => [.asset id]

theorem journaled_of_mem (hh : h ∈ parts none) (ep : Bool) : h.Journaled ep := by
  simp only [parts, mem_cons, not_mem_nil, or_false] at hh
  rcases hh with rfl | rfl <;> trivial

def combined (x : Option Address) (F : Holding → Int) : Int :=
  match x with
  | none => F .balance + F .lock
  | some id => F (.asset id)

def worth (db : StateDB) (x : Option Address) (a : Address) : Int :=
  combined x fun h => db.amount h a

/-- **All there is of a currency.** -/
def supply (db : StateDB) (x : Option Address) : Int := ∑ a, db.worth x a

section Supply

variable {x : Option Address}

theorem combined_congr {F G : Holding → Int} (h : ∀ k ∈ parts x, F k = G k) :
    combined x F = combined x G := by
  cases x with
  | none =>
    show F .balance + F .lock = _
    rw [h .balance (mem_cons_self ..), h .lock (mem_cons_of_mem _ (mem_cons_self ..))]
    rfl
  | some => exact h _ (mem_cons_self ..)

theorem supply_congr (h : ∀ k ∈ parts x, db'.amount k = db.amount k) :
    db'.supply x = db.supply x := by
  have hworth : db'.worth x = db.worth x := by
    funext b
    exact combined_congr fun k hk => congrFun (h k hk) b
  rw [supply, hworth, supply]

theorem supply_update {F : Holding → Int}
    (h : ∀ h, db'.amount h = update (db.amount h) a (F h)) :
    db'.supply x = db.supply x + (combined x F - db.worth x a) := by
  have hself : db'.worth x a = combined x F := by
    unfold worth
    simp only [h, update_self]
  have hrest : ∀ b, b ≠ a → db'.worth x b = db.worth x b := by
    intro b hb
    unfold worth
    simp only [h, update_of_ne hb]
  rw [supply, sum_eq_add_sub hrest, hself, supply]

theorem supply_addBalance (n : Int) :
    (db.addBalance a n).supply x = db.supply x + if x = none then n else 0 := by
  rw [supply_update fun h => amount_addBalance n]
  cases x <;> simp [worth, combined]

theorem supply_subBalance (n : Int) :
    (db.subBalance a n).supply x = db.supply x - if x = none then n else 0 := by
  rw [supply_update fun h => amount_subBalance n]
  cases x <;> simp [worth, combined]
  omega

theorem supply_addAssetBalance (id : Address) (n : Int) :
    (db.addAssetBalance a id n).supply x = db.supply x + if x = some id then n else 0 := by
  rw [supply_update fun h => amount_addAssetBalance id n]
  cases x <;> simp [worth, combined]

theorem supply_subAssetBalance (id : Address) (n : Int) :
    (db.subAssetBalance a id n).2.supply x = db.supply x -
      if x = some id ∧ (db.subAssetBalance a id n).1 = true then n else 0 := by
  rw [supply_update fun h => amount_subAssetBalance id n]
  cases x with
  | none => simp [worth, combined]
  | some y =>
    by_cases hy : y = id <;> cases (db.subAssetBalance a id n).1 <;> simp [worth, combined, hy]
    omega

theorem supply_vote {g : Growth} {m : Int} {dl : Option (List Address)} {votes : List Vote}
    {ok : Bool} (hx : db.vote g m dl a votes = some (ok, db')) : db'.supply x = db.supply x := by
  obtain ⟨diff, hdiff⟩ := amount_vote hx
  rw [supply_update hdiff]
  cases x <;> simp [worth, combined]
  omega

/-- `CreateAccount` carries over what can be spent, and nothing else. -/
def dropped (db : StateDB) (x : Option Address) (a : Address) : Int :=
  match x with
  | none => db.amount .lock a
  | some id => db.amount (.asset id) a

theorem supply_createAccount : (db.createAccount a).supply x = db.supply x - db.dropped x a := by
  rw [supply_update fun h => amount_createAccount]
  cases x <;> simp [worth, combined, dropped] <;> omega

theorem supply_createObject : (db.createObject a).supply x = db.supply x - db.worth x a := by
  rw [supply_update fun h => amount_createObject]
  cases x <;> simp [combined] <;> omega

end Supply

end StateDB

/-! ## Accounts that are replaced -/

namespace Holding

/-- What the account held that the entry says was replaced. -/
def replacedBy (h : Holding) : Change → Int
  | .resetObject _ prev => h.amount prev.data
  | _ => 0

/-- When its creation is taken back an account holds nothing, or what the trie has of it. -/
def EmptyHanded (h : Holding) (T : Trie) :
    (Address → Int) → List Change → Prop
  | _, [] => True
  | F, e :: es =>
    (match e with
      | .createObject a => F a = h.stored (T a)
      | .resetObject a _ => F a = 0
      | _ => True) ∧
    h.EmptyHanded T (h.undone false T F e) es

/-- **Undoing entries before the Epiphron block** gives accounts back, and takes none that has
something. -/
theorem sum_undone {id : Address} {T : Trie} {F : Address → Int}
    {es : List Change} (h : (Holding.asset id).EmptyHanded T F es) :
    ∑ a, es.foldl ((Holding.asset id).undone false T) F a =
      ∑ a, F a + (es.map (Holding.asset id).replacedBy).sum := by
  induction es generalizing F with
  | nil => exact (Int.add_zero _).symm
  | cons e es ih =>
    obtain ⟨he, hes⟩ := h
    suffices hstep : ∑ a, (Holding.asset id).undone false T F e a =
        ∑ a, F a + (Holding.asset id).replacedBy e by
      rw [foldl_cons, ih hes, map_cons, sum_cons, hstep, Int.add_assoc]
    cases e with
    | createObject a =>
      have hsame : (Holding.asset id).undone false T F (.createObject a) = F := by
        rw [undone, ← he, update_eq_self]
      rw [hsame]
      exact (Int.add_zero _).symm
    | resetObject a prev =>
      have hrest : ∀ b, b ≠ a → (Holding.asset id).undone false T F (.resetObject a prev) b = F b :=
        fun b hb => update_of_ne hb _ _
      have hself : (Holding.asset id).undone false T F (.resetObject a prev) a =
          (Holding.asset id).amount prev.data := update_self ..
      have hzero : F a = 0 := he
      rw [sum_eq_add_sub hrest, hself, hzero, Int.sub_zero]
      rfl
    | field a v =>
      have hsame : (Holding.asset id).undone false T F (.field a v) = F := by
        rw [undone]
        cases v <;> exact update_eq_self _ _
      rw [hsame]
      exact (Int.add_zero _).symm
    | _ => exact (Int.add_zero _).symm

end Holding

namespace StateDB

def replaced (db : StateDB) (h : Holding) : Int := (db.journal.entries.map h.replacedBy).sum

section Replaced

variable {db db' : StateDB} {h : Holding} {a : Address}

theorem replaced_of_extends {es : List Change} (hx : db.journal.Extends db'.journal es) :
    db'.replaced h = (es.map h.replacedBy).sum + db.replaced h := by
  rw [replaced, hx.entries, map_append, sum_append, replaced]

theorem replaced_of_journal (hj : db'.journal = db.journal) : db'.replaced h = db.replaced h := by
  rw [replaced, hj, replaced]

theorem replaced_create (o : StateObject) :
    ((db.record (db.createEntry a)).write a o).replaced h = db.amount h a + db.replaced h := by
  have hx : db.journal.Extends ((db.record (db.createEntry a)).write a o).journal
      [db.createEntry a] := .append _ _
  rw [replaced_of_extends hx, map_singleton, sum_singleton]
  congr 1
  unfold createEntry
  cases hget : db.getStateObject a with
  | none => exact (amount_of_none (by rw [shown, hget]; rfl)).symm
  | some => exact (amount_of_get hget).symm

theorem replaced_edit (f : Writer) : (db.edit a f).replaced h = db.replaced h := by
  refine edit_rule (R := fun t => t.replaced h = db.replaced h) db a rfl (fun hnone => ?_)
    fun t o w _ _ _ ht => ?_
  · refine (replaced_create _).trans ?_
    rw [amount_of_none (by rw [shown, hnone]; rfl), Int.zero_add]
  · refine (replaced_of_extends (.append _ (w.entry a o))).trans ?_
    rw [ht, map_singleton, sum_singleton]
    cases w <;> exact Int.zero_add _

theorem replaced_vote {g : Growth} {m : Int} {dl : Option (List Address)} {votes : List Vote}
    {ok : Bool} (hx : db.vote g m dl a votes = some (ok, db')) : db'.replaced h = db.replaced h := by
  exact vote_rule (P := fun t => t.replaced h = db.replaced h) hx
    (fun _ e _ _ _ => replaced_of_journal (rest_setVoteCells db a e.prev).2.2.2)
    fun _ _ ht _ => (replaced_edit _).trans ht

end Replaced

end StateDB

end GoAoa.State
