import GoAoa.State.Pointwise

/-!
# What a vote leaves

An accepted vote moves an amount from the balance to the lock and sets the list
(`vote_accepted`). Taking it back gives back the balance and the lock of before, and the slice
of before over an array that withdrawals have changed (`shown_undo_fields`).
-/

namespace GoAoa.State.StateDB

open StateDB

variable {T : Trie} {P : Address → Option Shown → Prop}
  {db db' : StateDB} {a user : Address} {d : Account} {s ep : Bool} {g : Growth}

theorem shown_lock {diff lock : Int} (h : db.shown a = some (d, s)) (hl : d.lockBalance = some lock)
    (hadd : (db.subBalance a diff).addLockBalance a diff = some db') :
    (∀ b, db'.shown b = if b = a then some ({ d with
      balance := d.balance - diff, lockBalance := some (lock + diff) }, s) else db.shown b) ∧
    db'.trie = db.trie ∧
    (diff ≠ 0 → db'.journal = (db.journal.append (.field a (.balance d.balance))).append
      (.field a (.lockBalance lock))) := by
  by_cases hdiff : diff = 0
  · subst hdiff
    cases hadd
    have hsub : ∀ b, (db.subBalance a 0).shown b = db.shown b :=
      shown_edit_touch db a h fun o w hf => by simp at hf
    have hadd := shown_edit_touch (db.subBalance a 0) a
      (f := fun o => if o.data.isEmpty then some .touch else none) ((hsub a).trans h)
      fun o w hf => by split at hf <;> cases hf; rfl
    refine ⟨fun b => ?_, (trie_edit _ _ _).trans (trie_edit _ _ _), absurd rfl⟩
    rw [hadd, hsub]
    by_cases hb : b = a
    · rw [if_pos hb, hb, h, Int.sub_zero, Int.add_zero, ← hl]
    · rw [if_neg hb]
  · obtain ⟨hsub, hjsub⟩ := edit_field db a (f := fun o => if diff = 0 then none
      else some (.field (.balance (o.data.balance - diff)))) (v := .balance (d.balance - diff)) h
      fun o ho => by rw [if_neg hdiff, ho]
    have hself := (hsub a).trans (if_pos rfl)
    have hlock : ((db.subBalance a diff).getOrNewStateObject a).2.data.lockBalance = some lock := by
      rw [(getOrNew_shown _ a).1]
      rw [show (db.subBalance a diff).shown a = _ from hself]
      exact hl
    unfold addLockBalance at hadd
    rw [if_neg hdiff, hlock] at hadd
    cases hadd
    obtain ⟨hadd, hjadd⟩ := edit_field (db.subBalance a diff) a
      (f := fun _ => some (.field (.lockBalance (lock + diff)))) (v := .lockBalance (lock + diff))
      hself fun _ _ => rfl
    refine ⟨fun b => ?_, (trie_edit _ _ _).trans (trie_edit _ _ _), fun _ => ?_⟩
    · rw [hadd]
      by_cases hb : b = a
      · rw [if_pos hb, if_pos hb]; rfl
      · rw [if_neg hb, if_neg hb]
        exact (hsub b).trans (if_neg hb)
    · rw [hjadd]
      have hj : (db.subBalance a diff).journal = _ := hjsub
      rw [hj]
      simp [Field.current, Field.set, hl]

/-- **An accepted vote**: the list is the ballot cast, and the amount has moved from the balance
to the lock. -/
theorem vote_accepted {m : Int} {dl : Option (List Address)} {votes : List Vote}
    (hs : db.shown user = some (d, s)) (h : db.vote g m dl user votes = some (true, db')) :
    ∃ delegates e diff lock, dl = some delegates ∧
      changeVoteList g delegates votes (Edit.start d.voteList) 0 = some (e, some diff) ∧
      d.lockBalance = some lock ∧ lock + diff ≤ aoa * m ∧ db'.trie = db.trie ∧
      (∀ b, db'.shown b = if b = user then some ({ d with
        balance := d.balance - diff, lockBalance := some (lock + diff), voteList := e.cur }, s)
        else db.shown b) ∧
      (diff ≠ 0 → db.journal.Extends db'.journal [.field user (.voteList e.prev),
        .field user (.lockBalance lock), .field user (.balance d.balance)]) := by
  obtain ⟨delegates, e, result, rfl, hchange, ⟨hok, -⟩ | ⟨-, diff, lock, db1, rfl, hlock, hmax, hadd,
    rfl⟩⟩ := vote_cases h
  · cases hok
  have hcells : ∀ b, (db.setVoteCells user e.prev).shown b =
      if b = user then some ({ d with voteList := e.prev }, s) else db.shown b := by
    intro b
    rw [shown_setVoteCells, hs]
    rfl
  have hlist : db.getVoteList user = d.voteList := by rw [getVoteList_shown, hs]; rfl
  have hl : d.lockBalance = some lock := by
    rw [getLockBalance_shown, hcells, if_pos rfl] at hlock
    exact hlock
  obtain ⟨htrie, -, -, hjournal⟩ := rest_setVoteCells db user e.prev
  rw [hlist] at hchange
  obtain ⟨hshown, htrie1, hj1⟩ := shown_lock ((hcells user).trans (if_pos rfl)) hl hadd
  obtain ⟨hset, hjset⟩ := edit_field db1 user (f := fun _ => some (.field (.voteList e.cur)))
    ((hshown user).trans (if_pos rfl)) fun _ _ => rfl
  refine ⟨delegates, e, diff, lock, rfl, hchange, hl, hmax, ?_, fun b => ?_, fun hdiff => ?_⟩
  · exact (trie_edit _ _ _).trans (htrie1.trans htrie)
  · rw [setVoteList, hset]
    by_cases hb : b = user
    · rw [if_pos hb, if_pos hb]; rfl
    · rw [if_neg hb, if_neg hb, hshown, if_neg hb, hcells, if_neg hb]
  · have hj : (db1.setVoteList user e.cur).journal = _ := hjset
    rw [hj, hj1 hdiff, hjournal]
    exact ((Journal.Extends.append _ _).trans (.append _ _)).trans (.append _ _)

/-! ## Taking fields back -/

theorem shown_undo_fields {fs : List Field}
    (h : (fs.map (Change.field a)).foldlM (undoUnlessAsset ep) db = some db') :
    db'.trie = db.trie ∧ ∀ b, db'.shown b =
      if b = a then (db.shown a).map fun x => (fs.foldl Field.set x.1, x.2) else db.shown b := by
  induction fs generalizing db with
  | nil =>
    cases h
    refine ⟨rfl, fun b => ?_⟩
    by_cases hb : b = a
    · rw [if_pos hb, hb]
      cases db'.shown a <;> rfl
    · rw [if_neg hb]
  | cons f fs ih =>
    obtain ⟨db1, h1, h⟩ := Option.bind_eq_some_iff.1 h
    have hundo : db.undo (.field a f) = some db1 := by
      cases ep <;> exact h1
    obtain ⟨o, ho, rfl⟩ := Option.map_eq_some_iff.1 hundo
    obtain ⟨htrie, hshown⟩ := ih h
    refine ⟨htrie, fun b => ?_⟩
    rw [hshown]
    by_cases hb : b = a
    · rw [if_pos hb, if_pos hb, shown_write, if_pos rfl, shown_of_get db a ho]
      rfl
    · rw [if_neg hb, if_neg hb, shown_write, if_neg hb]

theorem Restoring.fields (fs : List Field)
    (h : ∀ d s, P a (some (d, s)) → P a (some (fs.foldl Field.set d, s))) :
    Restoring T P (fs.map (Change.field a)) := by
  intro ep db db' hI hu
  obtain ⟨htrie, hshown⟩ := shown_undo_fields hu
  refine hI.update htrie ?_ hshown
  have hP := hI.shown a
  cases hx : db.shown a with
  | none => rwa [hx] at hP
  | some x =>
    rw [hx] at hP
    exact h x.1 x.2 hP

end GoAoa.State.StateDB
