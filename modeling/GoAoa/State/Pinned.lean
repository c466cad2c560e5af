import GoAoa.State.Marks
import GoAoa.State.Undo

/-!
# The root after a revert

A revert may leave an address in the dirty set that was not there at the snapshot, and may take
one out. Neither shows in the trie: what is added is as in the trie already, and the addresses of
objects that had dropped their callback stay in (`Pins`). What `Finalise` removes is another
matter. An account that is empty is removed if it is dirty, and an account that was removed before
is written again unless it is removed again.
-/

namespace GoAoa.State

open List Option Function Bool

namespace StateDB

variable {db db' db'' s u : StateDB} {a : Address} {o : StateObject} {P : Address → Prop}
  {e : Change} {es : List Change}

def Backed (db : StateDB) : Prop := ∀ a ∈ db.stateObjectsDirty, (db.stateObjects a).isSome

/-! ## What operations do to the marks -/

/-- Undoing the entry leaves the marks of the addresses `P`. -/
def Spares (P : Address → Prop) : Change → Prop
  | .createObject a => ¬ P a
  | .resetObject a prev => P a → prev.onDirty = false
  | .touch a _ prevDirty => P a → prevDirty = true
  | _ => True

theorem Spares.mono {Q : Address → Prop} (h : Spares Q e) (hPQ : ∀ a, P a → Q a) : Spares P e := by
  cases e with
  | createObject a | resetObject a | touch a => exact fun ha => h (hPQ a ha)
  | _ => trivial

/-- Marks are added only, and the new entries of the journal spare those there were. -/
structure Adds (db db' : StateDB) : Prop where
  marked : ∀ a, db.Marked a → db'.Marked a
  dirty : ∀ a ∈ db.stateObjectsDirty, a ∈ db'.stateObjectsDirty
  backed : db.Backed → db'.Backed
  journal : ∃ es, db.journal.Extends db'.journal es ∧ ∀ e ∈ es, Spares db.Marked e

namespace Adds

theorem refl (db : StateDB) : Adds db db :=
  ⟨fun _ h => h, fun _ h => h, id, [], .refl _, forall_mem_nil _⟩

theorem trans (h : Adds db db') (h' : Adds db' db'') : Adds db db'' := by
  obtain ⟨es, hes, hsp⟩ := h.journal
  obtain ⟨es', hes', hsp'⟩ := h'.journal
  refine ⟨fun a ha => h'.marked a (h.marked a ha), fun a ha => h'.dirty a (h.dirty a ha),
    fun hb => h'.backed (h.backed hb), es' ++ es, hes.trans hes', fun e he => ?_⟩
  rcases mem_append.1 he with he | he
  · exact (hsp' e he).mono h.marked
  · exact hsp e he

section

variable (hj : ∃ es, db.journal.Extends db'.journal es ∧ ∀ e ∈ es, Spares db.Marked e)
include hj

theorem of_objects (htrie : db'.trie = db.trie) (hobj : db'.stateObjects = db.stateObjects)
    (hdirty : db'.stateObjectsDirty = db.stateObjectsDirty) : Adds db db' := by
  refine ⟨fun a ha => ?_, fun a ha => hdirty ▸ ha, fun hb => ?_, hj⟩
  · unfold Marked getStateObject
    rw [hobj, htrie]
    exact ha
  · unfold Backed
    rw [hobj, hdirty]
    exact hb

theorem set (htrie : db'.trie = db.trie)
    (hobj : db'.stateObjects = Function.update db.stateObjects a (some (.live o)))
    (hmark : db.Marked a → o.onDirty = false)
    (hdirty : ∀ b ∈ db.stateObjectsDirty, b ∈ db'.stateObjectsDirty)
    (hnew : ∀ b ∈ db'.stateObjectsDirty, b = a ∨ b ∈ db.stateObjectsDirty) : Adds db db' := by
  have hslot : ∀ b, db'.stateObjects b = if b = a then some (.live o) else db.stateObjects b := by
    intro b
    rw [hobj]
    exact update_apply _ _ _ _
  refine ⟨fun b hb => ?_, hdirty, fun hback b hb => ?_, hj⟩
  · by_cases hba : b = a
    · exact ⟨o, get_live (by rw [hslot, if_pos hba]), hmark (hba ▸ hb)⟩
    · obtain ⟨x, hx, hdirty⟩ := hb
      refine ⟨x, ?_, hdirty⟩
      exact (get_congr ((hslot b).trans (if_neg hba)) (congrFun htrie b)).trans hx
  · rw [hslot]
    split
    · rfl
    · rename_i hne
      exact hback b ((hnew b hb).resolve_left hne)

theorem write (heq : db' = { db.write a o with journal := db'.journal }) : Adds db db' := by
  have hdirty : db'.stateObjectsDirty =
      if o.onDirty then db.stateObjectsDirty.insert a else db.stateObjectsDirty := by rw [heq]; rfl
  refine set hj (by rw [heq]; rfl) (by rw [heq]; rfl) (fun _ => rfl) (fun b hb => ?_) fun b hb => ?_
  · rw [hdirty]
    split
    · exact mem_insert_of_mem hb
    · exact hb
  · rw [hdirty] at hb
    split at hb
    · exact mem_insert_iff.1 hb
    · exact .inr hb

end

theorem create (d : Account) : Adds db ((db.record (db.createEntry a)).write a (newObject d)) := by
  refine write ⟨_, .append _ _, fun e he => ?_⟩ rfl
  rw [mem_singleton.1 he]
  unfold createEntry
  cases ho : db.getStateObject a with
  | none =>
    rintro ⟨o, ho', -⟩
    rw [ho] at ho'
    cases ho'
  | some =>
    rintro ⟨o, ho', hdirty⟩
    cases ho.symm.trans ho'
    exact hdirty

theorem edit (db : StateDB) (a : Address) (f : Writer) : Adds db (db.edit a f) := by
  refine edit_rule db a (refl db) (fun _ => create _) fun t o w _ ho _ ht => ?_
  refine ht.trans (write ⟨_, .append _ _, fun e he => ?_⟩ rfl)
  rw [mem_singleton.1 he]
  cases w with
  | touch =>
    rintro ⟨x, hx, hdirty⟩
    cases ho.symm.trans hx
    rw [hdirty]
    rfl
  | _ => trivial

theorem setVoteCells (db : StateDB) (a : Address) (cells : Slice Address) :
    Adds db (db.setVoteCells a cells) := by
  unfold StateDB.setVoteCells
  split
  · exact refl db
  · rename_i o ho
    refine set ⟨[], .refl _, forall_mem_nil _⟩ rfl rfl ?_ (fun _ hb => hb) fun _ hb => .inr hb
    rintro ⟨x, hx, hdirty⟩
    cases ho.symm.trans hx
    exact hdirty

theorem vote {g : Growth} {m : Int} {dl : Option (List Address)} {user : Address}
    {votes : List Vote} {ok : Bool} (h : db.vote g m dl user votes = some (ok, db')) :
    Adds db db' := by
  exact vote_rule h (fun _ e _ _ _ => setVoteCells db user e.prev)
    fun _ _ ht _ => ht.trans (edit _ _ _)

end Adds

/-! ## What undoing does to them -/

/-- The addresses `P` are marked, and every dirty address has an object. -/
structure Pins (P : Address → Prop) (db : StateDB) : Prop where
  backed : db.Backed
  marked : ∀ a, P a → db.Marked a
  dirty : ∀ a, P a → a ∈ db.stateObjectsDirty

section

variable (h : Pins P db)
include h

theorem Pins.adds (hadd : Adds db db') : Pins P db' :=
  ⟨hadd.backed h.backed, fun a ha => hadd.marked a (h.marked a ha),
    fun a ha => hadd.dirty a (h.dirty a ha)⟩

theorem Pins.write : Pins P (db.write a o) := h.adds (.write ⟨[], .refl _, forall_mem_nil _⟩ rfl)

theorem Pins.setStateObject (ho : P a → o.onDirty = false) : Pins P (db.setStateObject a o) := by
  refine ⟨fun b hb => ?_, fun b hb => ?_, h.dirty⟩
  · show (update db.stateObjects a (some (.live o)) b).isSome
    rw [update_apply]
    split
    · rfl
    · exact h.backed b hb
  · by_cases hba : b = a
    · exact ⟨o, by rw [getStateObject_setStateObject, if_pos hba], ho (hba ▸ hb)⟩
    · obtain ⟨x, hx, hdirty⟩ := h.marked b hb
      exact ⟨x, by rw [getStateObject_setStateObject, if_neg hba, hx], hdirty⟩

/-- **Undoing an entry that spares the marks.** -/
theorem Pins.undo (he : Spares P e) (hu : TakesBack db e db') : Pins P db' := by
  cases hu with
  | create a =>
    have hne : ∀ b, P b → b ≠ a := fun b hb heq => he (heq ▸ hb)
    refine ⟨fun b hb => ?_, fun b hb => ?_, fun b hb => ?_⟩
    · obtain ⟨hb, hba⟩ := mem_filter.1 hb
      show (update db.stateObjects a none b).isSome
      rw [update_of_ne (of_decide_eq_true hba)]
      exact h.backed b hb
    · obtain ⟨x, hx, hdirty⟩ := h.marked b hb
      refine ⟨x, ?_, hdirty⟩
      rw [← hx]
      exact get_congr (update_of_ne (hne b hb) _ _) rfl
    · exact mem_filter.2 ⟨h.dirty b hb, decide_eq_true (hne b hb)⟩
  | reset => exact h.setStateObject he
  | write => exact h.write
  | @touch a o prevDirty hne ho =>
    have hset : Pins P (db.setStateObject a { o with touched := false }) := by
      refine h.setStateObject fun ha => ?_
      obtain ⟨x, hx, hdirty⟩ := h.marked a ha
      cases ho.symm.trans hx
      exact hdirty
    cases prevDirty with
    | true => exact hset
    | false =>
      have hne : ∀ b, P b → b ≠ a := fun b hb heq => false_ne_true (he (heq ▸ hb))
      exact ⟨fun b hb => hset.backed b (mem_filter.1 hb).1, hset.marked, fun b hb =>
        mem_filter.2 ⟨hset.dirty b hb, decide_eq_true (hne b hb)⟩⟩
  | rest hobj hdirty htrie hjournal =>
    exact h.adds (.of_objects ⟨[], hjournal ▸ .refl _, forall_mem_nil _⟩ htrie hobj hdirty)

theorem Pins.undoAll {ep : Bool} (he : ∀ e ∈ es, Spares P e)
    (hu : es.foldlM (undoUnlessAsset ep) db = some db') : Pins P db' :=
  (undoAll_rule (I := fun es t => Pins P t ∧ ∀ e ∈ es, Spares P e)
    (fun _ _ _ _ ht hb => ⟨ht.1.undo (ht.2 _ mem_cons_self) hb, fun x hx =>
      ht.2 x (mem_cons_of_mem _ hx)⟩) ⟨h, he⟩ hu).1

end

/-! ## The same root -/

/-- The objects that were removed are removed again. -/
def RemovedAgain (flag : Bool) (db : StateDB) : Prop :=
  ∀ a o, db.stateObjects a = some (.deleted o) → removes flag o = true

/-- The same accounts are removed because they are empty. -/
def SameDeletions (flag : Bool) (s u : StateDB) : Prop :=
  flag = true → ∀ a d f, s.shown a = some (d, f) → d.isEmpty = true →
    (a ∈ u.stateObjectsDirty ↔ a ∈ s.stateObjectsDirty)

def Ends (flag : Bool) (db : StateDB) (a : Address) (t : Option StoredAccount) : Prop :=
  (a ∈ db.stateObjectsDirty ∧ ∃ slot, db.finaliseAt flag a = some (t, slot)) ∨
    (a ∉ db.stateObjectsDirty ∧ db.trie a = t)

variable {flag : Bool}

theorem finalise_of_ends {T : Trie}
    (h : ∀ a, Ends flag db a (T a)) : ∃ db', db.finalise flag = some db' ∧ db'.trie = T := by
  unfold finalise
  rw [if_pos]
  · refine ⟨_, rfl, funext fun a => ?_⟩
    show (if a ∈ db.stateObjectsDirty then ((db.finaliseAt flag a).map (·.1)).getD none
      else db.trie a) = T a
    rcases h a with ⟨hd, slot, hat⟩ | ⟨hd, ht⟩
    · rw [if_pos hd, hat]; rfl
    · rw [if_neg hd, ht]
  · refine all_eq_true.2 fun a ha => ?_
    rcases h a with ⟨-, slot, hat⟩ | ⟨hd, -⟩
    · rw [hat]; rfl
    · exact absurd ha hd

theorem slot_of_get (ho : db.getStateObject a = some o) {slot : Slot}
    (hslot : db.stateObjects a = some slot) : slot = .live o := by
  rcases get_cases ho with h | ⟨h, -⟩
  · exact some.inj (hslot.symm.trans h)
  · cases hslot.symm.trans h

theorem slot_of_none (ho : db.getStateObject a = none) {slot : Slot}
    (hslot : db.stateObjects a = some slot) : ∃ x, slot = .deleted x := by
  rcases get_none_cases ho with ⟨x, h⟩ | ⟨h, -⟩
  · exact ⟨x, some.inj (hslot.symm.trans h)⟩
  · cases hslot.symm.trans h

theorem ends_get {t : Option StoredAccount} (hb : db.Backed)
    (ho : db.getStateObject a = some o) (hclean : a ∉ db.stateObjectsDirty → db.Stored a o)
    (hgone : a ∈ db.stateObjectsDirty → removes flag o = true → t = none)
    (hkept : ¬ (a ∈ db.stateObjectsDirty ∧ removes flag o = true) →
      ∃ s, o.data.encode = some s ∧ t = some s) : Ends flag db a t := by
  by_cases hd : a ∈ db.stateObjectsDirty
  · obtain ⟨slot, hslot⟩ := isSome_iff_exists.1 (hb a hd)
    obtain rfl := slot_of_get ho hslot
    refine .inl ⟨hd, ?_⟩
    unfold finaliseAt
    rw [hslot]
    by_cases hr : removes flag o = true
    · exact ⟨.deleted o, by rw [hgone hd hr]; exact if_pos hr⟩
    · obtain ⟨s, hs, rfl⟩ := hkept fun hc => hr hc.2
      refine ⟨.live o, (if_neg hr).trans ?_⟩
      rw [show (Slot.obj (.live o)).data.encode = some s from hs]
      rfl
  · obtain ⟨s, hs, rfl⟩ := hkept fun hc => hd hc.1
    obtain ⟨-, s', hs', henc⟩ := hclean hd
    refine .inr ⟨hd, ?_⟩
    rw [hs', ← henc, hs]

theorem finalise_get (h : NoLoss db) (ho : db.getStateObject a = some o)
    (hf : db.finalise flag = some db') :
    (a ∈ db.stateObjectsDirty → removes flag o = true → db'.trie a = none) ∧
      (¬ (a ∈ db.stateObjectsDirty ∧ removes flag o = true) →
        ∃ s, o.data.encode = some s ∧ db'.trie a = some s) := by
  rcases finalise_at hf a with ⟨hd, slot, slot', hslot, -, hfin⟩ | ⟨hd, -, ht⟩
  · obtain rfl := slot_of_get ho hslot
    rcases finaliseSlot_cases hfin with ⟨hr, ht, -⟩ | ⟨hr, -, s, hs, ht⟩
    · exact ⟨fun _ _ => ht, fun hnot => absurd ⟨hd, hr⟩ hnot⟩
    · exact ⟨fun _ hr' => absurd (hr.symm.trans hr') false_ne_true, fun _ => ⟨s, hs, ht⟩⟩
  · refine ⟨fun hd' => absurd hd' hd, fun _ => ?_⟩
    have hclean : o.onDirty = true := by
      by_contra hnot
      exact hd ((h.get ho).1 (not_eq_true _ ▸ hnot))
    obtain ⟨-, s, hs, henc⟩ := (h.get ho).2 hclean
    exact ⟨s, henc, ht.trans hs⟩

end StateDB

theorem Likeness.Accounts.encode {d d' : Account} (h : Likeness.exact.Accounts d d') :
    d'.encode = d.encode ∧ d'.isEmpty = d.isEmpty := by
  have hassets := h.assets
  have hdata := h.data
  unfold Account.encode Account.isEmpty
  rw [h.nonce, h.balance, h.storage, h.code, h.lockBalance, h.voteList, ← hassets, ← hdata]
  exact ⟨rfl, rfl⟩

namespace StateDB

variable {s s' u : StateDB}

/-- **Databases that are alike have one root**, if nothing was lost, the marked accounts are still
marked, and the same accounts are removed. -/
theorem same_root {flag : Bool} (h : NoLoss s) (hg : Grounded s) (hal : Alike .exact s u)
    (hnone : RemovesNone s u) (hp : Pins s.Marked u) (hagain : RemovedAgain flag s)
    (hsame : SameDeletions flag s u) (hf : s.finalise flag = some s') :
    ∃ u', u.finalise flag = some u' ∧ u'.trie = s'.trie := by
  refine finalise_of_ends fun a => ?_
  cases ho : s.getStateObject a with
  | none =>
    have ho' := hal.get_none ho
    have htrie := hg a (by rw [shown, ho]; rfl)
    have ht : s'.trie a = none := by
      rcases finalise_at hf a with ⟨-, slot, slot', hslot, -, hfin⟩ | ⟨-, -, ht⟩
      · obtain ⟨x, rfl⟩ := slot_of_none ho hslot
        rcases finaliseSlot_cases hfin with ⟨-, ht, -⟩ | ⟨hr, -⟩
        · exact ht
        · exact absurd (hr.symm.trans (hagain a x hslot)) false_ne_true
      · rw [ht, htrie]
    rw [ht]
    by_cases hd : a ∈ u.stateObjectsDirty
    · obtain ⟨slot, hslot⟩ := isSome_iff_exists.1 (hp.backed a hd)
      obtain ⟨x, rfl⟩ := slot_of_none ho' hslot
      refine .inl ⟨hd, .deleted x, ?_⟩
      unfold finaliseAt
      rw [hslot]
      exact if_pos (hagain a x (hnone a x hslot))
    · exact .inr ⟨hd, by rw [hal.trie, htrie]⟩
  | some o =>
    obtain ⟨o', ho', hdata, hsui⟩ := hal.get ho
    obtain ⟨henc, hempty⟩ := hdata.encode
    have hrem : removes flag o' = removes flag o := by unfold removes; rw [hsui, hempty]
    have hclean : ¬ s.Marked a → s.Stored a o := fun hnot => by
      refine (h.get ho).2 ?_
      by_contra hd
      exact hnot ⟨o, ho, not_eq_true _ ▸ hd⟩
    -- what is removed is removed on both sides
    have hiff : a ∈ u.stateObjectsDirty ∧ removes flag o = true ↔
        a ∈ s.stateObjectsDirty ∧ removes flag o = true := by
      refine and_congr_left fun hr => ?_
      rcases or_eq_true_iff.1 hr with hsuicided | hdel
      · have hmarked : s.Marked a := by
          by_contra hnot
          exact absurd ((hclean hnot).1.symm.trans hsuicided) false_ne_true
        refine iff_of_true (hp.dirty a hmarked) ?_
        obtain ⟨x, hx, hd⟩ := hmarked
        exact (h.get hx).1 hd
      · obtain ⟨hflag, hdel⟩ := and_eq_true_iff.1 hdel
        exact hsame hflag a o.data o.suicided (shown_of_get s a ho) hdel
    obtain ⟨hgone, hkept⟩ := finalise_get h ho hf
    refine ends_get hp.backed ho' (fun hd => ?_) (fun hd hr => ?_) fun hnot => ?_
    · obtain ⟨hs, st, hst, he⟩ := hclean fun hm => hd (hp.dirty a hm)
      exact ⟨hsui.trans hs, st, by rw [hal.trie, hst], henc.trans he⟩
    · rw [hrem] at hr
      exact hgone (hiff.1 ⟨hd, hr⟩).1 hr
    · rw [hrem, hiff] at hnot
      rw [henc]
      exact hkept hnot

end StateDB

end GoAoa.State
