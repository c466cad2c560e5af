import GoAoa.State.Finalise
import GoAoa.Lib.Undo

/-!
# What a revert gives back

Undoing a change gives back what the accounts showed before it. How closely accounts are compared
is a `Likeness`. The changes of asset balances are undone by the opposite change, which does not
always give back the same list: `exact` compares the lists and has to rule these changes out,
`byBalance` compares the balances only.
-/

namespace GoAoa.State

open Option Function StateDB Assets

/-! ## Comparing accounts -/

/-- `SubAsset` as an undo uses it: if there is not enough nothing happens. -/
def Assets.subtract (l : Assets) (x : Asset) : Assets := (l.subAsset x).getD l

/-- What is compared of accounts, and the changes of asset lists that can be undone. -/
structure Likeness where
  assets : Assets → Assets → Prop
  data : Bytes → Bytes → Prop
  /-- The amounts that undoing handles alike in lists that are alike. -/
  fair : Asset → Prop
  addable : Assets → Asset → Prop
  subtractable : Assets → Asset → Prop
  equivalence : Equivalence assets
  equivalence_data : Equivalence data
  add_undo : ∀ {l x}, addable l x → fair x ∧ assets l ((l.addAsset x).subtract x)
  sub_undo : ∀ {l l' x}, subtractable l x → l.subAsset x = some l' →
    fair x ∧ assets l (l'.addAsset x)
  add_mono : ∀ {l l' x}, fair x → assets l l' → assets (l.addAsset x) (l'.addAsset x)
  sub_mono : ∀ {l l' x}, fair x → assets l l' → assets (l.subtract x) (l'.subtract x)

namespace Likeness

/-- The accounts are alike. A nil lock balance is zero, and of the vote list only what it shows
counts. -/
structure Accounts (L : Likeness) (d d' : Account) : Prop where
  nonce : d'.nonce = d.nonce
  balance : d'.balance = d.balance
  storage : d'.storage = d.storage
  code : d'.code = d.code
  lockBalance : d'.lockBalance.getD 0 = d.lockBalance.getD 0
  voteList : d'.voteList.view = d.voteList.view
  assets : L.assets d.assetList d'.assetList
  data : L.data d.assetData d'.assetData

/-- Both accounts are missing, or both are there and alike. -/
inductive Shows (L : Likeness) : Option Shown → Option Shown → Prop
  | none : L.Shows none none
  | some {d d' : Account} (s : Bool) (h : L.Accounts d d') : L.Shows (some (d, s)) (some (d', s))

variable {L : Likeness} {d d' d'' : Account} {x y z : Option Shown}

theorem Accounts.refl (L : Likeness) (d : Account) : L.Accounts d d :=
  ⟨rfl, rfl, rfl, rfl, rfl, rfl, L.equivalence.refl _, L.equivalence_data.refl _⟩

theorem Accounts.trans (h : L.Accounts d d') (h' : L.Accounts d' d'') : L.Accounts d d'' :=
  ⟨h'.nonce.trans h.nonce, h'.balance.trans h.balance, h'.storage.trans h.storage,
    h'.code.trans h.code, h'.lockBalance.trans h.lockBalance, h'.voteList.trans h.voteList,
    L.equivalence.trans h.assets h'.assets, L.equivalence_data.trans h.data h'.data⟩

theorem Shows.refl (L : Likeness) (x : Option Shown) : L.Shows x x := by
  cases x with
  | none => exact .none
  | some y => exact .some y.2 (.refl L y.1)

theorem Shows.trans (h : L.Shows x y) (h' : L.Shows y z) : L.Shows x z := by
  cases h with
  | none => exact h'
  | some s h =>
    cases h' with
    | some _ h' => exact .some s (h.trans h')

theorem Shows.of_some {s : Bool} (h : L.Shows (Option.some (d, s)) y) :
    ∃ d', y = Option.some (d', s) ∧ L.Accounts d d' := by
  cases h with
  | some _ h => exact ⟨_, rfl, h⟩

theorem Shows.of_none (h : L.Shows Option.none y) : y = Option.none := by
  cases h
  rfl

theorem Shows.to_none (h : L.Shows x Option.none) : x = Option.none := by
  cases h
  rfl

theorem Accounts.set (h : L.Accounts d d') (f : Field) : L.Accounts (f.set d) (f.set d') := by
  cases f with
  | balance => exact { h with balance := rfl }
  | lockBalance => exact { h with lockBalance := rfl }
  | voteList => exact { h with voteList := rfl }
  | nonce => exact { h with nonce := rfl }
  | storage => exact { h with storage := by simp only [Field.set, h.storage] }
  | code => exact { h with code := rfl }

theorem Accounts.set_current (L : Likeness) (d : Account) (f : Field) :
    L.Accounts d ((f.current d).set (f.set d)) := by
  have h := Accounts.refl L d
  cases f with
  | storage key value =>
    refine { h with storage := ?_ }
    show update (update d.storage key value) key (d.storage key) = d.storage
    rw [update_idem, update_eq_self]
  | _ => exact { h with }

end Likeness

/-! ## Two ways of comparing -/

section Instances

variable {l l' : Assets} {x : Asset}

/-- Adding to an asset that has no entry, or a positive balance, is undone exactly. -/
theorem Assets.subtract_addAsset (h : ∀ b, l.find x.id = some b → 0 < b.balance) :
    (l.addAsset x).subtract x = l := by
  have hbal : (l.addAsset x).balanceOf x.id = l.balanceOf x.id + x.balance := by
    rw [balanceOf_addAsset, if_pos rfl]
  have hpos : 0 ≤ l.balanceOf x.id := by
    cases hf : l.find x.id with
    | none => rw [balanceOf_of_none hf]
    | some b =>
      rw [balanceOf_of_find hf]
      exact Int.le_of_lt (h b hf)
  have hsome :=
    (subAsset_isSome _ _).2 ⟨_, (find_addAsset l x x.id).trans (if_pos rfl), by dsimp only; omega⟩
  obtain ⟨l', hl'⟩ := isSome_iff_exists.1 hsome
  unfold subtract
  rw [hl', getD_some]
  refine ext_find fun id => ?_
  rw [find_subAsset hl', hbal]
  by_cases hid : id = x.id
  · rw [if_pos hid, hid]
    cases hf : l.find x.id with
    | none =>
      rw [balanceOf_of_none hf, if_pos (by omega)]
    | some b =>
      have := h b hf
      rw [balanceOf_of_find hf, if_neg (by omega), Int.add_sub_cancel, ← find_id hf]
  · rw [if_neg hid, find_addAsset, if_neg hid]

theorem Assets.addAsset_subAsset (h : l.subAsset x = some l') : l'.addAsset x = l := by
  obtain ⟨b, hb, -⟩ := (subAsset_isSome l x).1 (by rw [h]; rfl)
  refine ext_find fun id => ?_
  rw [find_addAsset, find_subAsset h, balanceOf_subAsset h, if_pos rfl, Int.sub_add_cancel]
  by_cases hid : id = x.id
  · rw [if_pos hid, hid, hb, balanceOf_of_find hb, ← find_id hb]
  · rw [if_neg hid, if_neg hid]

/-- What taking back does to the balances does not depend on whether there is an entry. -/
theorem Assets.balanceOf_subtract (hx : 0 ≤ x.balance) (id : Address) :
    (l.subtract x).balanceOf id = l.balanceOf id -
      if id = x.id ∧ x.balance ≤ l.balanceOf x.id then x.balance else 0 := by
  unfold subtract
  cases hs : l.subAsset x with
  | some =>
    obtain ⟨b, hb, hle⟩ := (subAsset_isSome l x).1 (by rw [hs]; rfl)
    rw [getD_some, balanceOf_subAsset hs, balanceOf_of_find hb]
    simp only [hle, and_true]
  | none =>
    have hlow := lt_of_subAsset_none hx hs
    rw [getD_none]
    split <;> omega

theorem Assets.Nonneg.subtract (h : l.Nonneg) : (l.subtract x).Nonneg := by
  unfold Assets.subtract
  cases hs : l.subAsset x with
  | none => exact h
  | some => exact h.subAsset hs

def Likeness.exact : Likeness where
  assets := Eq
  data := Eq
  fair _ := True
  addable l x := ∀ b, l.find x.id = some b → 0 < b.balance
  subtractable _ _ := True
  equivalence := eq_equivalence
  equivalence_data := eq_equivalence
  add_undo h := ⟨trivial, (subtract_addAsset h).symm⟩
  sub_undo _ h := ⟨trivial, (addAsset_subAsset h).symm⟩
  add_mono _ h := by rw [h]
  sub_mono _ h := by rw [h]

/-- The lists are the same, or without debts and with the same balances. -/
def Assets.SameBalances (l l' : Assets) : Prop :=
  l = l' ∨ l.Nonneg ∧ l'.Nonneg ∧ ∀ id, l'.balanceOf id = l.balanceOf id

theorem Assets.equivalence_sameBalances : Equivalence SameBalances where
  refl _ := .inl rfl
  symm := by
    rintro l l' (rfl | ⟨h, h', heq⟩)
    · exact .inl rfl
    · exact .inr ⟨h', h, fun id => (heq id).symm⟩
  trans := by
    rintro l l' l'' (rfl | ⟨h, h', heq⟩) h2
    · exact h2
    · rcases h2 with rfl | ⟨-, h'', heq'⟩
      · exact .inr ⟨h, h', heq⟩
      · exact .inr ⟨h, h'', fun id => (heq' id).trans (heq id)⟩

/-- Accounts are compared by what can be asked about them. The description of an asset is left
out. -/
def Likeness.byBalance : Likeness where
  assets := SameBalances
  data _ _ := True
  fair x := 0 ≤ x.balance
  addable l x := l.Nonneg ∧ 0 ≤ x.balance
  subtractable l x := l.Nonneg ∧ 0 ≤ x.balance
  equivalence := equivalence_sameBalances
  equivalence_data := ⟨fun _ => trivial, fun _ => trivial, fun _ _ => trivial⟩
  add_undo {l x} h := by
    have hadd := h.1.addAsset h.2
    refine ⟨h.2, .inr ⟨h.1, hadd.subtract, fun id => ?_⟩⟩
    have hpos := h.1.balanceOf x.id
    rw [balanceOf_subtract h.2, balanceOf_addAsset, balanceOf_addAsset,
      if_pos rfl]
    by_cases hid : id = x.id
    · rw [if_pos hid, if_pos ⟨hid, by omega⟩]; omega
    · rw [if_neg hid, if_neg fun hc => hid hc.1]; omega
  sub_undo {l l' x} h hs := ⟨h.2, .inl (addAsset_subAsset hs).symm⟩
  add_mono {l l' x} hx h := by
    rcases h with rfl | ⟨hl, hl', heq⟩
    · exact .inl rfl
    · refine .inr ⟨hl.addAsset hx, hl'.addAsset hx, fun id => ?_⟩
      rw [balanceOf_addAsset, balanceOf_addAsset, heq]
  sub_mono {l l' x} hx h := by
    rcases h with rfl | ⟨hl, hl', heq⟩
    · exact .inl rfl
    · refine .inr ⟨hl.subtract, hl'.subtract, fun id => ?_⟩
      rw [balanceOf_subtract hx, balanceOf_subtract hx, heq, heq]

end Instances

namespace StateDB

variable {L : Likeness} {db db' s s' t t' u : StateDB} {a : Address} {o o' : StateObject}

/-- The databases show accounts that are alike, over one trie. -/
structure Alike (L : Likeness) (s t : StateDB) : Prop where
  trie : t.trie = s.trie
  shown : ∀ a, L.Shows (s.shown a) (t.shown a)
  logs : t.logs = s.logs
  refund : t.refund = s.refund

namespace Alike

theorem refl (L : Likeness) (s : StateDB) : Alike L s s := ⟨rfl, fun _ => .refl L _, rfl, rfl⟩

theorem trans (h : Alike L s t) (h' : Alike L t u) : Alike L s u :=
  ⟨h'.trie.trans h.trie, fun a => (h.shown a).trans (h'.shown a), h'.logs.trans h.logs,
    h'.refund.trans h.refund⟩

theorem of_shown (htrie : t.trie = s.trie) (hshown : ∀ a, t.shown a = s.shown a)
    (hlogs : t.logs = s.logs) (hrefund : t.refund = s.refund) : Alike L s t :=
  ⟨htrie, fun a => by rw [hshown a]; exact .refl L _, hlogs, hrefund⟩

theorem get (h : Alike L s t) (ho : s.getStateObject a = some o) :
    ∃ o', t.getStateObject a = some o' ∧ L.Accounts o.data o'.data ∧ o'.suicided = o.suicided := by
  have hshow := h.shown a
  rw [shown_of_get s a ho] at hshow
  obtain ⟨d', hx, hd⟩ := hshow.of_some
  obtain ⟨o', ho', heq⟩ := shown_eq_some t a hx
  obtain ⟨rfl, hsui⟩ := Prod.mk.inj heq
  exact ⟨o', ho', hd, hsui.symm⟩

theorem get_none (h : Alike L s t) (ho : s.getStateObject a = none) : t.getStateObject a = none := by
  have hshow := h.shown a
  rw [StateDB.shown, ho] at hshow
  exact map_eq_none_iff.1 hshow.of_none

theorem update (h : Alike L s t) (hs : s'.trie = s.trie ∧ s'.logs = s.logs ∧ s'.refund = s.refund)
    (ht : t'.trie = t.trie ∧ t'.logs = t.logs ∧ t'.refund = t.refund) {x y : Option Shown}
    (hxy : L.Shows x y) (hx : ∀ b, s'.shown b = if b = a then x else s.shown b)
    (hy : ∀ b, t'.shown b = if b = a then y else t.shown b) : Alike L s' t' := by
  refine ⟨by rw [hs.1, ht.1, h.trie], fun b => ?_, by rw [hs.2.1, ht.2.1, h.logs],
    by rw [hs.2.2, ht.2.2, h.refund]⟩
  rw [hx b, hy b]
  by_cases hb : b = a
  · rw [if_pos hb, if_pos hb]; exact hxy
  · rw [if_neg hb, if_neg hb]; exact h.shown b

theorem replace {d : Account} (ho : s.getStateObject a = some o) (hd : L.Accounts o.data d)
    (ht : t.trie = s.trie ∧ t.logs = s.logs ∧ t.refund = s.refund)
    (hshown : ∀ b, t.shown b = if b = a then some (d, o.suicided) else s.shown b) :
    Alike L s t := by
  refine (refl L s).update ⟨rfl, rfl, rfl⟩ ht (.some o.suicided hd) (fun b => ?_) hshown
  by_cases hb : b = a
  · rw [if_pos hb, hb, shown_of_get s a ho]
  · rw [if_neg hb]

theorem write (h : Alike L s t) (hd : L.Accounts o.data o'.data) (hs : o'.suicided = o.suicided) :
    Alike L (s.write a o) (t.write a o') := by
  refine h.update ⟨rfl, rfl, rfl⟩ ⟨rfl, rfl, rfl⟩ ?_ (fun b => shown_write s a b o)
    fun b => shown_write t a b o'
  rw [hs]
  exact .some _ hd

theorem setStateObject (h : Alike L s t) (hd : L.Accounts o.data o'.data)
    (hs : o'.suicided = o.suicided) : Alike L (s.setStateObject a o) (t.setStateObject a o') := by
  refine h.update ⟨rfl, rfl, rfl⟩ ⟨rfl, rfl, rfl⟩ ?_ (fun b => shown_setStateObject s a b o)
    fun b => shown_setStateObject t a b o'
  rw [hs]
  exact .some _ hd

theorem restore (h : Alike L s t) {f : StateObject → StateObject}
    (hf : ∀ o o', L.Accounts o.data o'.data → o'.suicided = o.suicided →
      L.Accounts (f o).data (f o').data ∧ (f o').suicided = (f o).suicided)
    (hs : s.restore a f = some s') : ∃ t', t.restore a f = some t' ∧ Alike L s' t' := by
  obtain ⟨o, ho, rfl⟩ := map_eq_some_iff.1 hs
  obtain ⟨o', ho', hd, hsui⟩ := h.get ho
  obtain ⟨hd', hs'⟩ := hf o o' hd hsui
  exact ⟨t.write a (f o'), by rw [restore, ho']; rfl, h.write hd' hs'⟩

end Alike

/-! ## Undoing respects likeness -/

/-- The amount of an entry about an asset. -/
def FairEntry (L : Likeness) : Change → Prop
  | .assetBalance _ x _ => L.fair x
  | _ => True

theorem alike_undo {e : Change} (he : FairEntry L e) (h : Alike L s t) (hs : s.undo e = some s') :
    ∃ t', t.undo e = some t' ∧ Alike L s' t' := by
  cases e with
  | createObject =>
    refine ⟨_, rfl, h.update ?_ ⟨rfl, rfl, rfl⟩ ?_ (shown_undo_createObject hs)
      (shown_undo_createObject rfl)⟩
    · cases hs; exact ⟨rfl, rfl, rfl⟩
    · rw [h.trie]; exact .refl L _
  | resetObject =>
    cases hs
    exact ⟨_, rfl, h.setStateObject (.refl L _) rfl⟩
  | suicide a =>
    simp only [undo] at hs ⊢
    cases ho : s.getStateObject a with
    | none =>
      rw [ho] at hs
      cases hs
      rw [h.get_none ho]
      exact ⟨t, rfl, h⟩
    | some =>
      rw [ho] at hs
      cases hs
      obtain ⟨o', ho', hd, -⟩ := h.get ho
      rw [ho']
      exact ⟨_, rfl, h.write { hd with balance := rfl } rfl⟩
  | field a prev => exact h.restore (fun o o' hd hsui => ⟨hd.set prev, hsui⟩) hs
  | refund =>
    cases hs
    exact ⟨_, rfl, h.trie, h.shown, h.logs, rfl⟩
  | addLog =>
    simp only [undo] at hs ⊢
    rw [h.logs]
    split at hs
    · cases hs
    · rename_i hne
      cases hs
      rw [if_neg hne]
      exact ⟨_, rfl, h.trie, h.shown, rfl, h.refund⟩
  | touch a prev =>
    simp only [undo] at hs ⊢
    split at hs
    · rename_i hc
      obtain ⟨o, ho, rfl⟩ := map_eq_some_iff.1 hs
      obtain ⟨o', ho', hd, hsui⟩ := h.get ho
      rw [if_pos hc, ho']
      have hset : Alike L (s.setStateObject a { o with touched := prev })
          (t.setStateObject a { o' with touched := prev }) := h.setStateObject hd hsui
      refine ⟨_, rfl, ?_⟩
      split
      · exact hset
      · exact ⟨hset.trie, hset.shown, hset.logs, hset.refund⟩
    · rename_i hc
      cases hs
      rw [if_neg hc]
      exact ⟨t, rfl, h⟩
  | assetBalance a x preOpIsAdd =>
    refine h.restore (fun o o' hd hsui => ?_) hs
    cases preOpIsAdd with
    | true => exact ⟨{ hd with assets := L.sub_mono he hd.assets }, hsui⟩
    | false => exact ⟨{ hd with assets := L.add_mono he hd.assets }, hsui⟩

theorem undoing (L : Likeness) : Undoing undo (Alike L) (FairEntry L) where
  refl := Alike.refl L
  trans := Alike.trans
  mono := alike_undo

/-- The journal has grown by changes that lead back to what was shown. -/
abbrev Undoable (L : Likeness) (s t : StateDB) : Prop :=
  Undone journal undo (Alike L) (FairEntry L) s t

theorem Undoable.refl (L : Likeness) (s : StateDB) : Undoable L s s := (undoing L).undone_refl s

theorem Undoable.trans (h : Undoable L s t) (h' : Undoable L t u) : Undoable L s u :=
  (undoing L).undone_trans h h'

theorem Undoable.of_alike (hj : t.journal = s.journal) (h : Alike L s t) : Undoable L s t :=
  ⟨[], hj ▸ .refl _, .nil h⟩

theorem Undoable.single {e : Change} (hj : t.journal = s.journal.append e) (he : FairEntry L e)
    (hu : t.undo e = some s') (h : Alike L s s') : Undoable L s t :=
  ⟨[e], hj ▸ .append _ _, .single he hu h⟩

/-! ## Changes that can be undone -/

/-- No account that was removed is in the trie. -/
def Grounded (db : StateDB) : Prop := ∀ a, db.shown a = none → db.trie a = none

theorem Grounded.of_shown (h : Grounded s) (htrie : t.trie = s.trie)
    (hshown : ∀ a, t.shown a = none → s.shown a = none) : Grounded t := by
  intro a ha
  rw [htrie]
  exact h a (hshown a ha)

/-- Where no object is removed no account goes. -/
theorem Grounded.of_removesNone (h : Grounded s) (htrie : t.trie = s.trie)
    (hnone : RemovesNone s t) : Grounded t := by
  intro a ha
  rcases get_none_cases (map_eq_none_iff.1 ha) with ⟨o, hslot⟩ | ⟨-, ht⟩
  · rw [htrie]
    exact h a (shown_deleted (hnone a o hslot))
  · exact ht

theorem Grounded.of_alike (h : Grounded s) (halike : Alike L s t) : Grounded t := by
  refine h.of_shown halike.trie fun a ha => ?_
  have hshow := halike.shown a
  rw [ha] at hshow
  exact hshow.to_none

theorem undoable_create (hg : Grounded db) (hj : db'.journal = db.journal.append (db.createEntry a))
    (htrie : db'.trie = db.trie) (hlogs : db'.logs = db.logs) (hrefund : db'.refund = db.refund)
    (hshown : ∀ b, b ≠ a → db'.shown b = db.shown b) : Undoable L db db' := by
  unfold createEntry at hj
  cases ho : db.getStateObject a with
  | none =>
    rw [ho] at hj
    refine .single hj trivial rfl (.of_shown htrie (fun b => ?_) hlogs hrefund)
    rw [shown_undo_createObject rfl]
    by_cases hb : b = a
    · have hnone : db.shown a = none := by rw [shown, ho]; rfl
      rw [if_pos hb, htrie, hg a hnone, hb, hnone]
      rfl
    · rw [if_neg hb]; exact hshown b hb
  | some =>
    rw [ho] at hj
    refine .single hj trivial rfl (.of_shown htrie (fun b => ?_) hlogs hrefund)
    rw [shown_setStateObject]
    by_cases hb : b = a
    · rw [if_pos hb, hb, shown_of_get db a ho]
    · rw [if_neg hb]; exact hshown b hb

/-- Whether a change of an object can be undone. -/
def CanUndo (L : Likeness) (d : Account) : Write → Prop
  | .addAsset x => L.addable d.assetList x
  | .subAsset x => L.subtractable d.assetList x ∧ (d.assetList.subAsset x).isSome = true
  | _ => True

theorem undoable_write {w : Write} (ho : db.getStateObject a = some o) (hw : CanUndo L o.data w) :
    Undoable L db ((db.record (w.entry a o)).write a (w.apply o)) := by
  -- what the entry restores has to be alike
  have hback : ∀ {f},
      L.Accounts o.data (f { w.apply o with onDirty := false }).data →
      (f { w.apply o with onDirty := false }).suicided = o.suicided →
      ∃ s', ((db.record (w.entry a o)).write a (w.apply o)).restore a f = some s' ∧
        Alike L db s' := by
    intro f hd hs
    refine ⟨((db.record (w.entry a o)).write a (w.apply o)).write a
      (f { w.apply o with onDirty := false }), ?_, ?_⟩
    · rw [restore, getStateObject_write, if_pos rfl]; rfl
    · refine .replace ho hd ⟨rfl, rfl, rfl⟩ fun b => ?_
      rw [shown_write, shown_write, hs]
      by_cases hb : b = a
      · rw [if_pos hb, if_pos hb]
      · rw [if_neg hb, if_neg hb, if_neg hb]; rfl
  cases w with
  | field f =>
    obtain ⟨s', hs', halike⟩ := hback (f := fun x => { x with data := (f.current o.data).set x.data })
      (.set_current L o.data f) rfl
    exact .single rfl trivial hs' halike
  | addAsset x =>
    obtain ⟨hfair, hassets⟩ := L.add_undo hw
    obtain ⟨s', hs', halike⟩ := hback (f := revertAssetBalance x true)
      { Likeness.Accounts.refl L o.data with assets := hassets } rfl
    exact .single rfl hfair hs' halike
  | subAsset x =>
    obtain ⟨l, hl⟩ := isSome_iff_exists.1 hw.2
    obtain ⟨hfair, hassets⟩ := L.sub_undo hw.1 hl
    obtain ⟨s', hs', halike⟩ := hback (f := revertAssetBalance x false)
      { Likeness.Accounts.refl L o.data with
        assets := by
          show L.assets o.data.assetList (((o.data.assetList.subAsset x).getD _).addAsset x)
          rw [hl]
          exact hassets } rfl
    exact .single rfl hfair hs' halike
  | touch =>
    have hshown : ∀ b, (((db.record (Write.touch.entry a o)).write a (Write.touch.apply o)).shown b) =
        db.shown b := by
      intro b
      rw [shown_write]
      by_cases hb : b = a
      · rw [if_pos hb, hb, shown_of_get db a ho]; rfl
      · rw [if_neg hb]; rfl
    obtain ⟨s', hs', halike⟩ : ∃ s', ((db.record (Write.touch.entry a o)).write a
        (Write.touch.apply o)).undo (Write.touch.entry a o) = some s' ∧ Alike L db s' := by
      simp only [undo, Write.entry]
      split
      · rw [getStateObject_write, if_pos rfl]
        refine ⟨_, rfl, ?_⟩
        have hset : ∀ b, (((db.record (Write.touch.entry a o)).write a
            (Write.touch.apply o)).setStateObject a { Write.touch.apply o with
              onDirty := false, touched := o.touched }).shown b = db.shown b := by
          intro b
          rw [shown_setStateObject, hshown]
          by_cases hb : b = a
          · rw [if_pos hb, hb, shown_of_get db a ho]; rfl
          · rw [if_neg hb]
        split <;> exact .of_shown rfl hset rfl rfl
      · exact ⟨_, rfl, .of_shown rfl hshown rfl rfl⟩
    exact .single rfl trivial hs' halike
  | suicide =>
    obtain ⟨s', hs', halike⟩ := hback (f := fun x => { x with suicided := o.suicided, data :=
      { x.data with balance := o.data.balance } }) (.refl L _) rfl
    refine .single rfl trivial ?_ halike
    rw [restore, getStateObject_write, if_pos rfl] at hs'
    simp only [undo, Write.entry, getStateObject_write, if_pos]
    exact hs'

section

variable (hg : Grounded db)
include hg

/-- **An edit can be undone** if the change it makes can be. -/
theorem undoable_edit {f : Writer} (hw : ∀ w, f (db.getOrNewStateObject a).2 = some w →
      CanUndo L (db.getOrNewStateObject a).2.data w) : Undoable L db (db.edit a f) := by
  refine edit_rule db a (.refl L db) (fun _ => undoable_create hg rfl rfl rfl rfl fun b hb => ?_) ?_
  · unfold createObject
    rw [shown_write, if_neg hb]
    rfl
  · rintro t o w rfl ho hf ht
    exact ht.trans (undoable_write ho (hw w hf))

theorem Grounded.edit (f : Writer) : Grounded (db.edit a f) := by
  refine hg.of_shown (trie_edit db a f) fun b hb => ?_
  rw [shown_edit] at hb
  split at hb
  · cases hb
  · exact hb

theorem Grounded.record (e : Change) : Grounded (db.record e) := hg

theorem Grounded.write : Grounded (db.write a o) := by
  refine hg.of_shown rfl fun b hb => ?_
  rw [shown_write] at hb
  split at hb
  · cases hb
  · exact hb

end

/-! ### Voting -/

/-- Working on the vote list leaves what the stored list shows. -/
def KeepsVoteList (g : Growth) (delegateList : Option (List Address)) (user : Address)
    (votes : List Vote) (db : StateDB) : Prop :=
  ∀ d e r, delegateList = some d →
    changeVoteList g d votes (Edit.start (db.getVoteList user)) 0 = some (e, r) →
    e.prev.view = (db.getVoteList user).view

theorem alike_setVoteCells {cells : Slice Address} (h : cells.view = (db.getVoteList a).view) :
    Alike L db (db.setVoteCells a cells) := by
  obtain ⟨htrie, hlogs, hrefund, -⟩ := rest_setVoteCells db a cells
  refine ⟨htrie, fun b => ?_, hlogs, hrefund⟩
  rw [shown_setVoteCells]
  rw [getVoteList_shown] at h
  split
  · rename_i hb
    rw [hb]
    cases hx : db.shown a with
    | none => exact .none
    | some x =>
      rw [hx] at h
      exact .some x.2 { Likeness.Accounts.refl L x.1 with voteList := h }
  · exact .refl L _

theorem Grounded.setVoteCells (hg : Grounded db) (cells : Slice Address) :
    Grounded (db.setVoteCells a cells) := by
  refine hg.of_shown (rest_setVoteCells db a cells).1 fun b hb => ?_
  rw [shown_setVoteCells] at hb
  split at hb
  · rename_i heq
    rw [heq]
    exact map_eq_none_iff.1 hb
  · exact hb

theorem undoable_vote_cells {g : Growth} {m : Int} {delegateList : Option (List Address)}
    {user : Address} {votes : List Vote} {ok : Bool} (hg : Grounded db)
    (h : db.vote g m delegateList user votes = some (ok, db')) :
    ∃ d e r, delegateList = some d ∧
      changeVoteList g d votes (Edit.start (db.getVoteList user)) 0 = some (e, r) ∧
      Undoable L (db.setVoteCells user e.prev) db' ∧ Grounded db' := by
  refine vote_rule (P := fun t => ∃ d e r, delegateList = some d ∧
      changeVoteList g d votes (Edit.start (db.getVoteList user)) 0 = some (e, r) ∧
      Undoable L (db.setVoteCells user e.prev) t ∧ Grounded t) h
    (fun d e r hd he => ⟨d, e, r, hd, he, .refl L _, hg.setVoteCells e.prev⟩) ?_
  rintro t f ⟨d, e, r, hd, he, hu, ht⟩ hf
  refine ⟨d, e, r, hd, he, hu.trans (undoable_edit ht fun w hw => ?_), ht.edit f⟩
  rcases hf _ w hw with rfl | ⟨v, -, rfl⟩ <;> trivial

/-- **A vote can be undone** if it leaves what the stored list shows. -/
theorem undoable_vote {g : Growth} {m : Int} {delegateList : Option (List Address)}
    {user : Address} {votes : List Vote} {ok : Bool} (hg : Grounded db)
    (hkeep : KeepsVoteList g delegateList user votes db)
    (h : db.vote g m delegateList user votes = some (ok, db')) : Undoable L db db' := by
  obtain ⟨d, e, r, hd, he, hcells, -⟩ := undoable_vote_cells hg h
  exact (Undoable.of_alike (rest_setVoteCells db user e.prev).2.2.2
    (alike_setVoteCells (hkeep d e r hd he))).trans hcells

/-! ### Reverting -/

/-- **Reverting gives back what was shown** if everything since can be undone. -/
theorem Undoable.revert (h : Undoable L db.snapshot.2 t)
    (hr : t.revertToSnapshot true db.snapshot.1 = some u) : Alike L db u ∧ Undoable L db u := by
  obtain ⟨es, hx, hes⟩ := h
  obtain ⟨t1, h1, j, rfl, hext⟩ := revertToSnapshot_eq hx hr
  obtain ⟨t2, h2, hrel⟩ := hes.undone
  obtain rfl : t2 = t1 := some.inj (h2.symm.trans h1)
  have halike : Alike L db { t2 with journal := j } :=
    ⟨hrel.trie, hrel.shown, hrel.logs, hrel.refund⟩
  exact ⟨halike, [], hext, .nil halike⟩

end StateDB

end GoAoa.State
