import GoAoa.DelegateState.Commit
import GoAoa.Lib.Pointers

/-!
# Rankings and copies of the delegate database

`GetDelegates` ranks the objects in memory. Its order is strict and total on delegates, so neither
the order in which the map is walked nor the sorting algorithm shows; but a delegate of the trie
that is not in memory is not ranked. `Copy` takes over the marked objects only: after a commit,
which clears the marks, the copy ranks nobody.
-/

namespace GoAoa.DelegateState

open List Option Run DelegateObject Candidate

/-! ## The order of the ranking -/

namespace Candidate

variable {H : HexForm} {x y z : Candidate}

/-- `CandidateSlice.Less`. -/
def less (H : HexForm) (x y : Candidate) : Bool :=
  if y.vote ≠ x.vote then y.vote < x.vote
  else if y.registerTime ≠ x.registerTime then x.registerTime < y.registerTime
  else !(H.hex x.address ≤ H.hex y.address)

theorem less_eq_false : x.less H y = false ↔ y.before H x = true := by
  unfold less before
  by_cases hv : y.vote = x.vote
  · by_cases ht : y.registerTime = x.registerTime
    · simp [hv, ht]
    · have ht' := Ne.symm ht
      simp only [hv, ht, ht', ne_eq, not_true, not_false_iff, if_true, if_false,
        decide_eq_false_iff_not, decide_eq_true_eq]
      omega
  · have hv' := Ne.symm hv
    simp only [hv, hv', ne_eq, not_false_iff, if_true, decide_eq_false_iff_not, decide_eq_true_eq]
    omega

/-- A strict order that is total on candidates of different addresses. -/
structure StrictTotal (lt : Candidate → Candidate → Bool) : Prop where
  irrefl : ∀ x, lt x x = false
  trans : ∀ x y z, lt x y = true → lt y z = true → lt x z = true
  total : ∀ x y, x.address ≠ y.address → lt x y = true ∨ lt y x = true

theorem less_strictTotal (H : HexForm) : StrictTotal (less H) where
  irrefl x := less_eq_false.2 (by simpa using before_total H x x)
  trans x y z hxy hyz := by
    by_contra hxz
    have hzx := less_eq_false.1 (Bool.not_eq_true _ ▸ hxz)
    have hbefore : x.before H y = true := by
      have htotal := before_total H x y
      rw [Bool.or_eq_true] at htotal
      refine htotal.resolve_right fun h => ?_
      rw [less_eq_false.2 h] at hxy
      cases hxy
    rw [less_eq_false.2 (before_trans H z x y hzx hbefore)] at hyz
    cases hyz
  total x y hne := by
    by_contra h
    simp only [not_or, Bool.not_eq_true] at h
    exact hne (address_of_before H x y (less_eq_false.1 h.2) (less_eq_false.1 h.1))

end Candidate

variable {db : DelegateDB} {a : Address}

namespace DelegateDB

/-! ## What the ranking lists -/

/-- The delegate at an address: in memory, or else in the trie. -/
def delegate? (db : DelegateDB) (a : Address) : Option Delegate :=
  match db.delegateObjects.lookup a with
  | some obj => if obj.data.delete || obj.suicided then none else some obj.data
  | none => (db.trie.lookup a).filter fun d => !d.delete

/-- `r` lists the delegates, each once and in order. -/
structure Ranks (H : HexForm) (db : DelegateDB) (r : List Candidate) : Prop where
  exact : ∀ c, c ∈ r ↔ (db.delegate? c.address).map
    (fun d => ⟨c.address, u64 d.vote.natAbs, d.nickname, d.registerTime⟩) = some c
  once : (r.map address).Nodup
  sorted : r.Pairwise fun x y => x.less H y

theorem ranked_eq (ho : (db.delegateObjects.lookup a).isSome) : db.ranked a =
    (db.delegate? a).map fun d => ⟨a, u64 d.vote.natAbs, d.nickname, d.registerTime⟩ := by
  obtain ⟨obj, ho⟩ := isSome_iff_exists.1 ho
  unfold ranked delegate? candidate?
  rw [ho]
  dsimp only [bind_some]
  split <;> rfl

/-- `r` is the candidates of a walk over the map, as `sort.Sort` may order them. -/
def Sorts (H : HexForm) (db : DelegateDB) (r : List Candidate) : Prop :=
  ∃ l : List (Sigma fun _ : Address => DelegateObject), l.Perm db.delegateObjects.entries ∧
    r.Perm (l.filterMap candidate?) ∧ r.Pairwise fun x y => y.less H x = false

/-- **The ranking is canonical.** In whatever order the map is walked and however the candidates
are sorted, the list is the same one; it has all delegates exactly if those of the trie are in
memory. -/
theorem ranking_canonical_iff (H : HexForm) (db : DelegateDB) :
    Candidate.StrictTotal (Candidate.less H) ∧
      ((∀ r, Sorts H db r → r = db.getDelegates H ∧ Ranks H db r) ↔
        ∀ a, db.delegateObjects.lookup a = none → db.delegate? a = none) := by
  refine ⟨less_strictTotal H, fun h a hnone => ?_, fun hmem r ⟨l, hl, hr, hsort⟩ => ?_⟩
  · obtain ⟨-, hranks⟩ := h (db.getDelegates H) ⟨_, .refl _, mergeSort_perm _ _,
      (pairwise_mergeSort (before_trans H) (before_total H) _).imp
        less_eq_false.2⟩
    cases hd : db.delegate? a with
    | none => rfl
    | some d =>
      have hin := (hranks.exact ⟨a, u64 d.vote.natAbs, d.nickname, d.registerTime⟩).2 (by rw [hd]; rfl)
      rw [mem_getDelegates, ranked, hnone] at hin
      cases hin
  · have hnodup := (hr.map _).nodup_iff.2 (nodup_candidates hl)
    have hrank : ∀ c, c ∈ r ↔ db.ranked c.address = some c := fun c =>
      hr.mem_iff.trans (mem_candidates hl c)
    have hbefore := hsort.imp less_eq_false.1
    refine ⟨eq_getDelegates (hnodup.of_map _) hrank hbefore, fun c => ?_, hnodup, ?_⟩
    · rw [hrank]
      cases ho : db.delegateObjects.lookup c.address with
      | none => rw [hmem _ ho, ranked, ho]; rfl
      | some => rw [ranked_eq (by rw [ho]; rfl)]
    · refine (List.Pairwise.and hsort (pairwise_map.1 hnodup)).imp fun {x y} h => ?_
      exact ((less_strictTotal H).total x y h.2).resolve_right (by simp [h.1])

/-- A delegate that leaves and registers again is not ranked once the registration is reverted,
until something asks for it. -/
theorem reverted_unranked :
    ((Run.exec proceed (registered ++ [.op (.suicide 1), .op .snapshot, .op (.register 1 [] 0),
      .op (.revert 0)]) (new ∅)).map fun db => (db.getDelegates .bytes, (db.exist 1).2,
        ((db.exist 1).1.getDelegates .bytes).map Candidate.address)) =
      some ([], true, [1]) := by
  decide +kernel

/-! ## Copies -/

end DelegateDB

/-- `deepCopy`. The record is copied, and its votes are never changed in place. -/
def DelegateObject.deepCopy (obj : DelegateObject) : DelegateObject :=
  { newObject obj.data with deleted := obj.deleted }

namespace DelegateDB

variable {cp : DelegateDB}

/-- `Copy`; a marked address without an object panics. -/
def copy (db : DelegateDB) : Option DelegateDB :=
  if db.delegateObjectsDirty.all fun a => (db.delegateObjects.lookup a).isSome then
    some
      { trie := db.trie
        delegateObjects := db.delegateObjectsDirty.foldl (fun m a =>
          (db.delegateObjects.lookup a).elim m fun obj => m.insert a obj.deepCopy) ∅
        delegateObjectsDirty := db.delegateObjectsDirty
        thash := 0, bhash := 0, txIndex := 0, logs := db.logs, logSize := db.logSize
        journal := .empty }
  else none

/-- The marked objects are in memory and not suicided, and the others are deleted ones of which
the trie knows as much. -/
structure Copyable (db : DelegateDB) : Prop where
  marked : ∀ a ∈ db.delegateObjectsDirty, (db.delegateObjects.lookup a).isSome
  live : ∀ a ∈ db.delegateObjectsDirty, ∀ obj, db.delegateObjects.lookup a = some obj →
    obj.suicided = true → obj.data.delete = true
  clean : ∀ a ∉ db.delegateObjectsDirty, ∀ obj, db.delegateObjects.lookup a = some obj →
    (obj.data.delete || obj.suicided) = true ∧ (!obj.dead) = (db.trie.lookup a).isSome ∧
      obj.data.vote = ((db.trie.lookup a).map (·.vote)).getD 0

theorem candidate_eq_none {e : Sigma fun _ : Address => DelegateObject} :
    candidate? e = none ↔ (e.2.data.delete || e.2.suicided) = true := by
  unfold candidate?
  split <;> simp_all

theorem exist_eq_elim : (db.exist a).2 =
    (db.delegateObjects.lookup a).elim (db.trie.lookup a).isSome fun obj => !obj.dead := by
  unfold exist getStateObject load
  cases db.delegateObjects.lookup a with
  | none => cases db.trie.lookup a <;> rfl
  | some obj =>
    show (if obj.dead then none else some obj).isSome = !obj.dead
    cases obj.dead <;> rfl

theorem getVote_eq_elim : (db.getVote a).2 = (db.delegateObjects.lookup a).elim
    (((db.trie.lookup a).map (·.vote)).getD 0) fun obj => obj.data.vote := by
  unfold getVote getStateObjectContainDelete load
  cases db.delegateObjects.lookup a with
  | none => cases db.trie.lookup a <;> rfl
  | some => rfl

theorem lookup_copy (h : db.copy = some cp) : cp.trie = db.trie ∧
    ∀ a, cp.delegateObjects.lookup a =
      if a ∈ db.delegateObjectsDirty then (db.delegateObjects.lookup a).map .deepCopy
      else none := by
  unfold copy at h
  split at h
  case isFalse => cases h
  rename_i hmarked
  cases h
  have hfold : ∀ (ks : List Address) (m : AList fun _ => DelegateObject) (b : Address),
      (∀ a ∈ ks, (db.delegateObjects.lookup a).isSome) →
      (ks.foldl (fun m a => (db.delegateObjects.lookup a).elim m fun obj =>
        m.insert a obj.deepCopy) m).lookup b =
        if b ∈ ks then (db.delegateObjects.lookup b).map .deepCopy else m.lookup b := by
    intro ks
    induction ks with
    | nil => simp
    | cons k ks ih =>
      intro m b hks
      obtain ⟨obj, ho⟩ := isSome_iff_exists.1 (hks k mem_cons_self)
      rw [foldl_cons, ih _ _ fun a ha => hks a (mem_cons_of_mem _ ha), ho]
      by_cases hb : b ∈ ks
      · simp [hb]
      · by_cases hk : b = k
        · subst hk; simp [hb, ho]
        · simp [hb, hk, AList.lookup_insert_ne hk]
  exact ⟨rfl, fun a => (hfold _ _ a (all_eq_true.1 hmarked)).trans (by simp)⟩

/-! ### Databases that share memory -/

/-- A database as its map holds it: pointers in place of the objects of `rest`. -/
structure Held where
  rest : DelegateDB
  refs : AList fun _ : Address => Nat

structure World where
  objects : Objects DelegateObject
  dbs : Objects Held

namespace World

variable {w w' : World} {d e : Nat} {refs : AList fun _ : Address => Nat}

def view (w : World) (d : Nat) : DelegateDB :=
  { (w.dbs.cells d).rest with delegateObjects := w.objects.deref (w.dbs.cells d).refs }

/-- The database at `d` becomes `db`. A change of an object is made in place, and so is its
replacement, which shows at least as much to those that share it. -/
def put (w : World) (d : Nat) (refs : AList fun _ : Address => Nat) (db : DelegateDB) : World :=
  { objects := (w.objects.store refs db.delegateObjects).1
    dbs := { w.dbs with
      cells := Function.update w.dbs.cells d ⟨db, (w.objects.store refs db.delegateObjects).2⟩ } }

/-- A database over objects of its own, at pointer 0. -/
def single (m : Objects DelegateObject) (db : DelegateDB) : World :=
  put ⟨m, ⟨fun _ => ⟨db, ∅⟩, 1⟩⟩ 0 ∅ db

def step (d : Nat) (s : Step) (w : World) : Option World :=
  (proceed s (w.view d)).map (w.put d (w.dbs.cells d).refs)

/-- `Copy` allocates the database and, by `deepCopy`, each of its objects. -/
def copy (w : World) (d : Nat) : Option (World × Nat) :=
  (w.view d).copy.map fun cp =>
    ({ w.put w.dbs.next ∅ cp with
        dbs := { (w.put w.dbs.next ∅ cp).dbs with next := w.dbs.next + 1 } }, w.dbs.next)

/-- A step of the database at `d` or of that at `e`. -/
def stepEither (d e : Nat) : Step ⊕ Step → World → Option World
  | .inl s, w => w.step d s
  | .inr s, w => w.step e s

/-- Two databases that share no object. -/
def Apart (w : World) (d e : Nat) : Prop :=
  d ≠ e ∧ w.objects.Apart (w.dbs.cells d).refs (w.dbs.cells e).refs

theorem Apart.symm (h : w.Apart d e) : w.Apart e d := ⟨h.1.symm, h.2.symm⟩

theorem view_put (h : w.objects.Valid refs) (db : DelegateDB) : (w.put d refs db).view d = db := by
  have hrefs := Objects.deref_store h (t := db.delegateObjects)
  simp only [put, view, Function.update_self, hrefs]

theorem put_apart (hne : d ≠ e) (h : w.objects.Apart refs (w.dbs.cells e).refs) (db : DelegateDB) :
    (w.put d refs db).view e = w.view e ∧ (w.put d refs db).Apart d e := by
  obtain ⟨hview, happart⟩ := h.store db.delegateObjects
  refine ⟨?_, hne, ?_⟩
  · simp only [put, view, Function.update_of_ne hne.symm, hview]
  · simpa only [put, Function.update_self, Function.update_of_ne hne.symm] using happart

theorem step_apart {s : Step} (h : w.Apart d e) (hs : w.step d s = some w') :
    proceed s (w.view d) = some (w'.view d) ∧ w'.view e = w.view e ∧ w'.Apart d e := by
  obtain ⟨db, hp, rfl⟩ := map_eq_some_iff.1 hs
  exact ⟨by rw [view_put h.2.left, hp], put_apart h.1 h.2 db⟩

/-- Each of two databases that share no object goes through its own steps. -/
theorem exec_stepEither {xs : List (Step ⊕ Step)} (hap : w.Apart d e)
    (h : exec (stepEither d e) xs w = some w') :
    exec proceed (xs.filterMap Sum.getLeft?) (w.view d) = some (w'.view d) ∧
      exec proceed (xs.filterMap Sum.getRight?) (w.view e) = some (w'.view e) := by
  induction xs generalizing w with
  | nil => cases h; exact ⟨rfl, rfl⟩
  | cons x xs ih =>
    obtain ⟨v, hx, hrest⟩ := exec_cons_eq_some.1 h
    cases x with
    | inl s =>
      obtain ⟨hstep, hother, hap⟩ := step_apart hap hx
      obtain ⟨hl, hr⟩ := ih hap hrest
      exact ⟨exec_cons_eq_some.2 ⟨_, hstep, hl⟩, hother ▸ hr⟩
    | inr s =>
      obtain ⟨hstep, hother, hap⟩ := step_apart hap.symm hx
      obtain ⟨hl, hr⟩ := ih hap.symm hrest
      exact ⟨hother ▸ hl, exec_cons_eq_some.2 ⟨_, hstep, hr⟩⟩

theorem view_single (m : Objects DelegateObject) (db : DelegateDB) : (single m db).view 0 = db :=
  view_put (Objects.valid_empty m) db

theorem copy_single (m : Objects DelegateObject) (hcopy : db.copy = some cp) :
    ∃ w, (single m db).copy 0 = some (w, 1) ∧ w.view 0 = db ∧ w.view 1 = cp ∧ w.Apart 0 1 := by
  have hvalid : (single m db).objects.Valid ((single m db).dbs.cells 0).refs :=
    ((Objects.valid_empty m).apart_empty.store db.delegateObjects).2.left
  obtain ⟨hview, hap⟩ := put_apart Nat.one_ne_zero hvalid.apart_empty cp
  refine ⟨{ (single m db).put 1 ∅ cp with dbs := { ((single m db).put 1 ∅ cp).dbs with next := 2 } },
    by rw [copy, view_single, hcopy]; rfl, hview.trans (view_single m db), ?_, hap.symm⟩
  exact view_put (w := single m db) (Objects.valid_empty _) cp

end World

/-- **Copies are faithful** exactly if every object in memory is marked, but for deleted ones that
the trie knows as they are. What is later done to one of the two databases, in the memory they
share, is not seen in the other. -/
theorem copy_faithful_iff (H : HexForm) (m : Objects DelegateObject) (db : DelegateDB) :
    (∃ w cp, (World.single m db).copy 0 = some (w, cp) ∧ w.view 0 = db ∧
      SameView H db (w.view cp) ∧
      ∀ xs w', Run.exec (World.stepEither 0 cp) xs w = some w' →
        Run.exec proceed (xs.filterMap Sum.getLeft?) db = some (w'.view 0) ∧
          Run.exec proceed (xs.filterMap Sum.getRight?) (w.view cp) = some (w'.view cp)) ↔
      db.Copyable := by
  constructor
  · rintro ⟨w, p, hw, -, hsame, -⟩
    obtain ⟨cp, hcopy⟩ : ∃ cp, db.copy = some cp := by
      obtain ⟨cp, hcopy, -⟩ := map_eq_some_iff.1 hw
      exact ⟨cp, World.view_single m db ▸ hcopy⟩
    obtain ⟨w', hw', -, hview, -⟩ := World.copy_single m hcopy
    cases hw.symm.trans hw'
    rw [hview] at hsame
    obtain ⟨htrie, hlook⟩ := lookup_copy hcopy
    have hrank := (getDelegates_eq_iff H).1 hsame.getDelegates
    refine ⟨?_, fun a ha obj ho hs => ?_, fun a ha obj ho => ?_⟩
    · unfold copy at hcopy
      split at hcopy
      · exact all_eq_true.1 ‹_›
      · cases hcopy
    · have hr := hrank a
      rw [ranked, ranked, hlook, if_pos ha, ho] at hr
      by_contra hd
      simp [candidate?, deepCopy, newObject, hs, hd] at hr
    · have hr := hrank a
      have he := hsame.exist a
      have hv := hsame.getVote a
      rw [ranked, ranked, hlook, if_neg ha, ho] at hr
      rw [exist_eq_elim, exist_eq_elim, hlook, if_neg ha, ho, htrie] at he
      rw [getVote_eq_elim, getVote_eq_elim, hlook, if_neg ha, ho, htrie] at hv
      exact ⟨candidate_eq_none.1 hr, he, hv⟩
  · intro h
    obtain ⟨cp, hcopy⟩ : ∃ cp, db.copy = some cp := ⟨_, if_pos (all_eq_true.2 h.marked)⟩
    obtain ⟨htrie, hlook⟩ := lookup_copy hcopy
    obtain ⟨w, hw, horig, hview, hap⟩ := World.copy_single m hcopy
    refine ⟨w, 1, hw, horig, ?_, fun xs w' hx => horig ▸ World.exec_stepEither hap hx⟩
    rw [hview]
    refine ⟨fun a => ?_, fun a => ?_, (getDelegates_eq_iff H).2 fun a => ?_⟩
    · rw [exist_eq_elim, exist_eq_elim, hlook, htrie]
      by_cases ha : a ∈ db.delegateObjectsDirty
      · obtain ⟨obj, ho⟩ := isSome_iff_exists.1 (h.marked a ha)
        simp [ha, ho, dead, deepCopy, newObject]
      · cases ho : db.delegateObjects.lookup a with
        | none => simp [ha]
        | some obj => simpa [ha] using (h.clean a ha obj ho).2.1
    · rw [getVote_eq_elim, getVote_eq_elim, hlook, htrie]
      by_cases ha : a ∈ db.delegateObjectsDirty
      · obtain ⟨obj, ho⟩ := isSome_iff_exists.1 (h.marked a ha)
        simp [ha, ho, deepCopy, newObject]
      · cases ho : db.delegateObjects.lookup a with
        | none => simp [ha]
        | some obj => simpa [ha] using (h.clean a ha obj ho).2.2
    · rw [ranked, ranked, hlook]
      by_cases ha : a ∈ db.delegateObjectsDirty
      · obtain ⟨obj, ho⟩ := isSome_iff_exists.1 (h.marked a ha)
        have hlive := h.live a ha obj ho
        cases hs : obj.suicided <;>
          simp_all [candidate?, deepCopy, newObject]
      · cases ho : db.delegateObjects.lookup a with
        | none => simp [ha]
        | some obj =>
          rw [if_neg ha]
          exact candidate_eq_none.2 (h.clean a ha obj ho).1

/-- The copy of a database after its commit ranks nobody. -/
theorem not_copy_faithful_committed :
    ((Run.exec proceed registered (new ∅)).bind fun db => db.copy.map fun cp =>
      ((db.getDelegates .bytes).map Candidate.address, cp.getDelegates .bytes)) =
      some ([1], []) := by
  decide +kernel

end DelegateDB

end GoAoa.DelegateState
