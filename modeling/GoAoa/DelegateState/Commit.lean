import GoAoa.DelegateState.Open

/-!
# Commits of the delegate database

`CommitTo` writes the marked objects and clears the marks, so what is changed of an object after a
commit is not written by the next one. What is opened at a committed root answers like the live
database exactly if the objects without a mark agree with the trie, and they do as long as only
marked objects are changed.
-/

namespace GoAoa.DelegateState

open List Option Run

namespace DelegateDB

/-! ## Writing to the trie -/

section Write

variable {db : DelegateDB}

structure Written (ks : List Address) (db db' : DelegateDB) : Prop where
  objects : db'.delegateObjects = db.delegateObjects
  trie : ∀ b, db'.trie.lookup b =
    if b ∈ ks then (db.delegateObjects.lookup b).map (·.data) else db.trie.lookup b

theorem written_insert {a : Address} {obj : DelegateObject}
    (ho : db.delegateObjects.lookup a = some obj) (b : Address) :
    (db.trie.insert a obj.data).lookup b =
      if b = a then (db.delegateObjects.lookup b).map (·.data) else db.trie.lookup b := by
  split
  · rename_i h; rw [h, ho]; exact AList.lookup_insert _
  · rename_i h; exact AList.lookup_insert_ne h

theorem Open.finalise (h : db.Open) :
    ∃ db', db.finalise = some db' ∧ Written db.delegateObjectsDirty db db' ∧
      db'.delegateObjectsDirty = db.delegateObjectsDirty := by
  have hfold : ∀ (ks : List Address) (db : DelegateDB),
      (∀ a obj, db.delegateObjects.lookup a = some obj → obj.suicided = false) →
      (∀ a ∈ ks, (db.delegateObjects.lookup a).isSome) →
      ∃ db', ks.foldlM finaliseOne db = some db' ∧ Written ks db db' ∧
        db'.delegateObjectsDirty = db.delegateObjectsDirty := by
    intro ks
    induction ks with
    | nil => exact fun db _ _ => ⟨db, rfl, ⟨rfl, fun b => (if_neg not_mem_nil).symm⟩, rfl⟩
    | cons k ks ih =>
      intro db hlive hks
      obtain ⟨obj, ho⟩ := isSome_iff_exists.1 (hks k mem_cons_self)
      have hone : db.finaliseOne k = some { db with trie := db.trie.insert k obj.data } := by
        unfold finaliseOne
        rw [ho]
        exact if_neg (by rw [hlive k obj ho]; exact Bool.false_ne_true)
      obtain ⟨db', hrun, hw, hd⟩ := ih { db with trie := db.trie.insert k obj.data } hlive
        fun a ha => hks a (mem_cons_of_mem _ ha)
      refine ⟨db', by rw [foldlM_cons, hone]; exact hrun, ⟨hw.objects, fun b => ?_⟩, hd⟩
      rw [hw.trie]
      by_cases hb : b ∈ ks
      · rw [if_pos hb, if_pos (mem_cons_of_mem _ hb)]
      · rw [if_neg hb, written_insert ho]
        by_cases hbk : b = k
        · rw [if_pos hbk, if_pos (mem_cons.2 (.inl hbk))]
        · rw [if_neg hbk, if_neg (mt mem_cons.1 (not_or.2 ⟨hbk, hb⟩))]
  obtain ⟨db', hrun, hw, hd⟩ := hfold db.delegateObjectsDirty db
    (fun a obj ha => (h.live a obj ha).2) h.dirty
  refine ⟨db'.clearJournal, ?_, ⟨hw.objects, hw.trie⟩, hd⟩
  unfold DelegateDB.finalise
  rw [hrun]
  rfl

/-- What `CommitTo` has done after the objects of `ks`. -/
structure Committed (ks : List Address) (db db' : DelegateDB) : Prop where
  objects : db'.delegateObjects = db.delegateObjects
  dirty : ∀ b, b ∈ db'.delegateObjectsDirty ↔ b ∈ db.delegateObjectsDirty ∧ b ∉ ks
  trie : ∀ b, db'.trie.lookup b =
    if b ∈ ks ∧ b ∈ db.delegateObjectsDirty then (db.delegateObjects.lookup b).map (·.data)
    else db.trie.lookup b

theorem committed_one {k : Address} {obj : DelegateObject}
    (ho : db.delegateObjects.lookup k = some obj) (hlive : obj.suicided = false) :
    Committed [k] db (db.commitOne k) := by
  have hdirty : ∀ b, b ∈ db.delegateObjectsDirty.filter (· ≠ k) ↔
      b ∈ db.delegateObjectsDirty ∧ b ∉ [k] := fun b => by
    rw [mem_filter, mem_singleton, decide_eq_true_iff]
  unfold commitOne
  rw [ho]
  dsimp only
  rw [if_neg (by rw [hlive]; exact Bool.false_ne_true)]
  split
  · rename_i hk
    refine ⟨rfl, hdirty, fun b => (written_insert ho b).trans ?_⟩
    simp only [mem_singleton]
    refine if_congr ⟨fun hb => ⟨hb, hb ▸ hk⟩, And.left⟩ rfl rfl
  · rename_i hk
    refine ⟨rfl, hdirty, fun b => (if_neg fun hb => hk ?_).symm⟩
    rw [← mem_singleton.1 hb.1]
    exact hb.2

theorem Committed.cons {k : Address} {ks : List Address} {db1 db2 : DelegateDB}
    (h : Committed [k] db db1) (h' : Committed ks db1 db2) : Committed (k :: ks) db db2 where
  objects := h'.objects.trans h.objects
  dirty b := by
    rw [h'.dirty, h.dirty, mem_singleton, mem_cons, not_or, and_assoc]
  trie b := by
    rw [h'.trie, h.trie, h.objects]
    by_cases hbk : b = k
    · have hnot : b ∉ db1.delegateObjectsDirty := fun hb =>
        ((h.dirty b).1 hb).2 (mem_singleton.2 hbk)
      rw [if_neg fun hb => hnot hb.2]
      exact if_congr (and_congr_left' (iff_of_true (mem_singleton.2 hbk)
        (mem_cons.2 (.inl hbk)))) rfl rfl
    · have hsame : b ∈ db1.delegateObjectsDirty ↔ b ∈ db.delegateObjectsDirty := by
        rw [h.dirty, mem_singleton, and_iff_left hbk]
      rw [if_neg (c := b ∈ [k] ∧ _) fun hb => hbk (mem_singleton.1 hb.1)]
      exact if_congr (and_congr (by rw [mem_cons, or_iff_right hbk]) hsame) rfl rfl

theorem Open.commitTo (h : db.Open) :
    Written db.delegateObjectsDirty db db.commitTo ∧ ∀ a, a ∉ db.commitTo.delegateObjectsDirty := by
  have hfold : ∀ (ks : List Address) (db : DelegateDB),
      (∀ a obj, db.delegateObjects.lookup a = some obj → obj.suicided = false) →
      (∀ a ∈ ks, (db.delegateObjects.lookup a).isSome) →
      Committed ks db (ks.foldl commitOne db) := by
    intro ks
    induction ks with
    | nil =>
      exact fun db _ _ => ⟨rfl, fun b => (and_iff_left not_mem_nil).symm,
        fun b => (if_neg fun hb => not_mem_nil hb.1).symm⟩
    | cons k ks ih =>
      intro db hlive hks
      obtain ⟨obj, ho⟩ := isSome_iff_exists.1 (hks k mem_cons_self)
      have hone := committed_one ho (hlive k obj ho)
      refine hone.cons (ih _ ?_ ?_)
      · rw [hone.objects]; exact hlive
      · rw [hone.objects]; exact fun a ha => hks a (mem_cons_of_mem _ ha)
  have hc := hfold db.delegateObjects.keys db (fun a obj ha => (h.live a obj ha).2)
    fun a ha => AList.lookup_isSome.2 ha
  have hkeys : ∀ a ∈ db.delegateObjectsDirty, a ∈ db.delegateObjects.keys := fun a ha =>
    AList.lookup_isSome.1 (h.dirty a ha)
  refine ⟨⟨hc.objects, fun b => (hc.trie b).trans ?_⟩, fun a ha => ?_⟩
  · exact if_congr ⟨And.right, fun hb => ⟨hkeys b hb, hb⟩⟩ rfl rfl
  · obtain ⟨ha, hnot⟩ := (hc.dirty a).1 ha
    exact hnot (hkeys a ha)

theorem Written.opened {db' : DelegateDB} (h : db.Open)
    (hw : Written db.delegateObjectsDirty db db')
    (hd : ∀ a ∈ db'.delegateObjectsDirty, a ∈ db.delegateObjectsDirty) : db'.Open := by
  refine ⟨fun a ha => ?_, fun a obj ha => ?_, fun a ha => ?_, fun a obj ha _ => ?_⟩
  · have ha : db.delegateObjects.lookup a = none := hw.objects ▸ ha
    rw [hw.trie, ha, h.loaded a ha]
    exact ite_self _
  · exact h.live a obj (hw.objects ▸ ha)
  · rw [hw.objects]
    exact h.dirty a (hd a ha)
  · rw [hw.objects] at ha
    rw [hw.trie, ha]
    split
    · rfl
    · rename_i hnot
      exact h.clean a obj ha hnot

theorem Written.synced {db' : DelegateDB} (h : db.Synced)
    (hw : Written db.delegateObjectsDirty db db') : db'.Synced := by
  intro a obj d ha _ hd
  rw [hw.objects] at ha
  rw [hw.trie, ha] at hd
  split at hd
  · exact (some.inj hd).symm
  · rename_i hnot
    exact h a obj d ha hnot hd

end Write

/-! ## Opening what was committed -/

/-- A database opened at the root of a commit of `db` answers like `db` after the commit. -/
def Reopens (db : DelegateDB) : Prop :=
  ∀ a, ((new db.commitTo.trie).exist a).2 = (db.commitTo.exist a).2 ∧
    ((new db.commitTo.trie).getVote a).2 = (db.commitTo.getVote a).2

/-- The objects without a mark have the votes and the deletion mark of the trie. -/
def Unchanged (db : DelegateDB) : Prop :=
  ∀ a obj d, db.delegateObjects.lookup a = some obj → a ∉ db.delegateObjectsDirty →
    db.trie.lookup a = some d → d.delete = obj.data.delete ∧ d.vote = obj.data.vote

theorem Synced.unchanged {db : DelegateDB} (h : db.Synced) : db.Unchanged := by
  intro a obj d ho hnot hd
  rw [h a obj d ho hnot hd]
  exact ⟨rfl, rfl⟩

theorem reopens_iff {db : DelegateDB} (h : db.Open) : Reopens db ↔ Unchanged db := by
  obtain ⟨hw, hnone⟩ := h.commitTo
  have hopen := hw.opened h fun a ha => absurd ha (hnone a)
  have hat : ∀ a obj d, db.delegateObjects.lookup a = some obj →
      db.commitTo.trie.lookup a = some d →
        ((((new db.commitTo.trie).exist a).2 = (db.commitTo.exist a).2 ∧
        ((new db.commitTo.trie).getVote a).2 = (db.commitTo.getVote a).2) ↔
          d.delete = obj.data.delete ∧ d.vote = obj.data.vote) := by
    intro a obj d ho hd
    rw [exist_eq (open_new _).loaded, exist_eq hopen.loaded, getVote_eq (open_new _).loaded,
      getVote_eq hopen.loaded, lookup_new, hw.objects, ho, hd]
    have hlive : obj.dead = obj.data.delete := by
      unfold DelegateObject.dead
      rw [(h.live a obj ho).1]
      rfl
    refine and_congr (Iff.trans ?_ (Bool.not_inj_iff)) Iff.rfl
    rw [← hlive]
    rfl
  constructor
  · intro hsame a obj d ho hnot hd
    exact (hat a obj d ho (by rw [hw.trie, if_neg hnot, hd])).1 (hsame a)
  · intro hsame a
    cases ho : db.delegateObjects.lookup a with
    | none =>
      have hn : db.commitTo.delegateObjects.lookup a = none := by rw [hw.objects, ho]
      rw [exist_eq (open_new _).loaded, exist_eq hopen.loaded, getVote_eq (open_new _).loaded,
        getVote_eq hopen.loaded, lookup_new, hopen.loaded a hn, hn]
      exact ⟨rfl, rfl⟩
    | some obj =>
      by_cases hd : a ∈ db.delegateObjectsDirty
      · exact (hat a obj obj.data ho (by rw [hw.trie, if_pos hd, ho]; rfl)).2 ⟨rfl, rfl⟩
      · obtain ⟨d, ht⟩ := isSome_iff_exists.1 (h.clean a obj ho hd)
        exact (hat a obj d ho (by rw [hw.trie, if_neg hd, ht])).2 (hsame a obj d ho hd ht)

/-! ## Runs -/

end DelegateDB

/-- What is done to a database: an operation, `IntermediateRoot`, or `CommitTo`. -/
inductive Step where
  | op (o : Op)
  | intermediateRoot
  | commitTo

namespace DelegateDB

def proceed : Step → DelegateDB → Option DelegateDB
  | .op o, db => db.step o
  | .intermediateRoot, db => db.finalise
  | .commitTo, db => some db.commitTo

def Forward : Step → Prop
  | .op (.revert _) => False
  | _ => True

def Marks : Step → DelegateDB → Prop
  | .op (.addVote a amount), db =>
    a ∈ db.delegateObjectsDirty ∨ amount = 0 ∨ (db.exist a).2 = false
  | .op (.subVote a amount), db =>
    a ∈ db.delegateObjectsDirty ∨ amount = 0 ∨ (db.getVote a).2 = 0
  | .op (.setVote a amount), db =>
    a ∈ db.delegateObjectsDirty ∨ (db.exist a).2 = false ∨ (db.getVote a).2 = amount
  | .op (.suicide a), db => a ∈ db.delegateObjectsDirty ∨ (db.exist a).2 = false
  | _, _ => True

section Runs

variable {db : DelegateDB}

theorem dead_of_not_exist (hl : db.Loaded) {a : Address} {obj : DelegateObject}
    (h : (db.exist a).2 = false) (ho : db.delegateObjects.lookup a = some obj) :
    obj.dead = true := by
  rw [exist_eq hl, ho] at h
  simpa using h

theorem vote_of_getVote (hl : db.Loaded) {a : Address} {obj : DelegateObject} {v : Int}
    (h : (db.getVote a).2 = v) (ho : db.delegateObjects.lookup a = some obj) :
    obj.data.vote = v := by
  rw [getVote_eq hl, ho] at h
  exact h

theorem Open.step {o : Op} (h : db.Open) (hf : Forward (.op o)) :
    ∃ db', db.step o = some db' ∧ db'.Open ∧ (db.Synced → Marks (.op o) db → db'.Synced) := by
  cases o with
  | register a nickname registerTime =>
    refine ⟨_, rfl, ?_⟩
    rcases register_cases h nickname registerTime with ⟨obj, -, -, heq⟩ | ⟨-, hc⟩
    · rw [heq]
      exact ⟨h, fun hs _ => hs⟩
    · exact ⟨hc.opened h ⟨rfl, rfl⟩, fun hs _ => hc.synced hs⟩
  | addVote a amount =>
    have he := edits_addVote (a := a) h.loaded amount
    refine ⟨_, rfl, he.opened h fun obj => ?_, fun hs hm => he.synced hs (hm.imp_right ?_)⟩
    · unfold DelegateObject.addVote
      split <;> exact ⟨rfl, rfl⟩
    · rintro (hz | hne) obj ho
      · unfold DelegateObject.addVote
        rw [hz, Int.natCast_zero, Int.add_zero, DelegateObject.withVote_vote]
        exact ite_self _
      · exact if_pos (dead_of_not_exist h.loaded hne ho)
  | subVote a amount =>
    have he := edits_subVote (a := a) h.loaded amount
    refine ⟨_, rfl, he.opened h fun obj => ?_, fun hs hm => he.synced hs (hm.imp_right ?_)⟩
    · unfold DelegateObject.subVote
      split <;> exact ⟨rfl, rfl⟩
    · rintro (hz | hv) obj ho
      · exact if_pos (Int.natCast_eq_zero.2 hz)
      · have hv := vote_of_getVote h.loaded hv ho
        unfold DelegateObject.subVote
        rw [Int.max_eq_left (by omega), ← hv, DelegateObject.withVote_vote]
        exact ite_self _
  | setVote a amount =>
    have he := edits_setVote (a := a) h.loaded amount
    refine ⟨_, rfl, he.opened h fun obj => ?_, fun hs hm => he.synced hs (hm.imp_right ?_)⟩
    · unfold DelegateObject.setVote
      split <;> exact ⟨rfl, rfl⟩
    · rintro (hne | hv) obj ho
      · exact if_pos (dead_of_not_exist h.loaded hne ho)
      · unfold DelegateObject.setVote
        rw [← vote_of_getVote h.loaded hv ho, DelegateObject.withVote_vote]
        exact ite_self _
  | suicide a =>
    have he := edits_suicide (a := a) h.loaded
    refine ⟨_, rfl, he.opened h fun obj => ?_, fun hs hm => he.synced hs (hm.imp_right ?_)⟩
    · unfold DelegateObject.suicide
      split <;> exact ⟨rfl, rfl⟩
    · exact fun hne obj ho => if_pos (dead_of_not_exist h.loaded hne ho)
  | exist =>
    refine ⟨_, rfl, ?_⟩
    unfold DelegateDB.exist
    rw [h.loaded.getStateObject]
    exact ⟨h, fun hs _ => hs⟩
  | addLog | snapshot => exact ⟨_, rfl, ⟨h.loaded, h.live, h.dirty, h.clean⟩, fun hs _ => hs⟩
  | revert => exact hf.elim

theorem Open.proceed {s : Step} (h : db.Open) (hf : Forward s) :
    ∃ db', db.proceed s = some db' ∧ db'.Open ∧ (db.Synced → Marks s db → db'.Synced) := by
  cases s with
  | op => exact h.step hf
  | intermediateRoot =>
    obtain ⟨db', hrun, hw, hd⟩ := h.finalise
    exact ⟨db', hrun, hw.opened h fun a ha => hd ▸ ha, fun hs _ => hw.synced hs⟩
  | commitTo =>
    obtain ⟨hw, hnone⟩ := h.commitTo
    exact ⟨_, rfl, hw.opened h fun a ha => absurd ha (hnone a), fun hs _ => hw.synced hs⟩

end Runs

/-- **Commits compose** exactly if at the last one the objects without a mark are as in the trie,
and so if no step changes an object without a mark. -/
theorem commit_reopens_iff (steps : List Step) (tr : DelegateTrie) (hf : ∀ s ∈ steps, Forward s) :
    ∃ db, Run.exec proceed steps (new tr) = some db ∧ (Reopens db ↔ Unchanged db) ∧
      (Run.Along proceed Marks steps (new tr) → Reopens db) := by
  have hrun : ∀ (steps : List Step) (db : DelegateDB), (∀ s ∈ steps, Forward s) → db.Open →
      ∃ db', exec proceed steps db = some db' ∧ db'.Open ∧
        (db.Synced → Along proceed Marks steps db → db'.Synced) := by
    intro steps
    induction steps with
    | nil => exact fun db _ h => ⟨db, rfl, h, fun hs _ => hs⟩
    | cons s steps ih =>
      intro db hf h
      obtain ⟨db1, hstep, h1, hsync1⟩ := h.proceed (hf s mem_cons_self)
      obtain ⟨db2, hrun, h2, hsync2⟩ := ih db1 (fun x hx => hf x (mem_cons_of_mem _ hx)) h1
      refine ⟨db2, exec_cons_eq_some.2 ⟨db1, hstep, hrun⟩, h2, fun hs ha => ?_⟩
      exact hsync2 (hsync1 hs ha.1) (ha.2 db1 hstep)
  obtain ⟨db, hexec, hopen, hsync⟩ := hrun steps (new tr) hf (open_new tr)
  refine ⟨db, hexec, reopens_iff hopen, fun ha => (reopens_iff hopen).2 ?_⟩
  exact (hsync (synced_new tr) ha).unchanged

def registered : List Step := [.op (.register 1 [] 0), .commitTo]

theorem commit_reopens_register :
    ∃ db, Run.exec proceed (registered ++ [.op (.register 2 [] 7), .op (.addVote 2 5)])
      (new ∅) = some db ∧ Reopens db ∧ (db.getVote 2).2 = 5 := by
  obtain ⟨db, hrun, -, hmarks⟩ := commit_reopens_iff
    (registered ++ [.op (.register 2 [] 7), .op (.addVote 2 5)]) ∅ (by simp [registered, Forward])
  refine ⟨db, hrun, hmarks ⟨trivial, fun db1 h1 => ⟨trivial, fun db2 h2 => ⟨trivial, fun db3 h3 =>
    ⟨.inl ?_, fun _ _ => trivial⟩⟩⟩⟩,
    of_check (fun db => (db.getVote 2).2 = 5) (by decide +kernel) hrun⟩
  cases h1; cases h2; cases h3
  decide +kernel

/-- **Votes that are added after a commit are lost**: the next commit does not write them. -/
theorem not_commit_reopens_addVote :
    ∃ db, Run.exec proceed (registered ++ [.op (.addVote 1 1), .intermediateRoot])
        (new ∅) = some db ∧
      (db.commitTo.getVote 1).2 = 1 ∧ ((new db.commitTo.trie).getVote 1).2 = 0 ∧ ¬ Reopens db := by
  refine exists_of_check (fun db => (db.commitTo.getVote 1).2 = 1 ∧
      ((new db.commitTo.trie).getVote 1).2 = 0) (by decide +kernel)
    fun db _ ⟨hlive, hfresh⟩ => ⟨hlive, hfresh, fun hsame => ?_⟩
  have hvote := (hsame 1).2
  rw [hlive, hfresh] at hvote
  cases hvote

end DelegateDB

end GoAoa.DelegateState
