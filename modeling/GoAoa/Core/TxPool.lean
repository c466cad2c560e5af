import GoAoa.State.Voting

/-!
# The checks of the transaction pool

`validateVote` of `core/tx_pool.go` goes through a vote request like `changeVoteList`: it starts
with the slice of the stored list and withdraws in its array. Which entries the stored list shows
afterwards is read off the lists the request passes through (`cell_walk`), and so is when it is
as before (`checks_keep_list_iff`).
-/

namespace GoAoa.Core

open List Option Slice Edit State

/-- The errors of `validateVote`. -/
inductive VoteErr where
  | voteList
  | alreadyVoted (candidate : Address)
  | notVotedYet (candidate : Address)
  | operation (candidate : Address)
  deriving DecidableEq, Repr

/-- `validateVote`: the list under change and the error. A vote without a candidate panics. -/
def validateVote (g : Growth) (delegateList : List Address) :
    List Vote → Edit Address → Option (Edit Address × Option VoteErr)
  | [], e => some (e, none)
  | vote :: votes, e =>
    match vote.candidate with
    | none => none
    | some c =>
      match vote.operation with
      | 0 =>
        if c ∈ e.cur.view then some (e, some (.alreadyVoted c))
        else if c ∉ delegateList then some (e, some .voteList)
        else validateVote g delegateList votes (e.push g 0 c)
      | 1 =>
        if c ∈ e.cur.view then validateVote g delegateList votes (e.remove c)
        else some (e, some (.notVotedYet c))
      | _ => some (e, some (.operation c))

/-- `validateVote` with the list of the sender in the state of the pool. -/
def validateVoteOf (g : Growth) (delegateList : List Address) (votes : List Vote) (user : Address)
    (db : StateDB) : Option (Option VoteErr × StateDB) :=
  (validateVote g delegateList votes (start (db.getVoteList user))).map fun r =>
    (r.2, db.setVoteCells user r.1.prev)

/-! ## The walk of both loops -/

section Walk

variable {g : Growth} {d : List Address} {votes : List Vote} {e e' : Edit Address} {diff : Int}

/-- The list under change when the loop ends, after all votes or at one that is refused. -/
def walk (g : Growth) (d : List Address) : List Vote → Edit Address → Edit Address
  | [], e => e
  | v :: votes, e =>
    match markOf v with
    | some (.add c) => if c ∉ e.cur.view ∧ c ∈ d then walk g d votes (e.push g 0 c) else e
    | some (.remove c) => if c ∈ e.cur.view then walk g d votes (e.remove c) else e
    | none => e

theorem changeVoteList_walk {r : Option Int}
    (h : changeVoteList g d votes e diff = some (e', r)) : e' = walk g d votes e := by
  induction votes generalizing e diff with
  | nil => cases h; rfl
  | cons v votes ih =>
    unfold changeVoteList at h
    unfold walk markOf
    split at h
    · rename_i hop
      split at h
      · cases h
      · rename_i c hc
        simp only [hop, hc]
        split at h
        · cases h
          rw [if_neg fun hadd => hadd.1 ‹_›]
        · split at h
          · cases h
            rw [if_neg fun hadd => ‹c ∉ d› hadd.2]
          · rw [if_pos ⟨‹_›, not_not.1 ‹_›⟩]
            exact ih h
    · rename_i hop
      split at h
      · cases h
      · rename_i c hc
        simp only [hop, hc]
        split at h
        · rw [if_pos ‹_›]
          exact ih h
        · cases h
          rw [if_neg ‹_›]
    · cases h
      split <;> simp_all

/-- Votes that pass the check of the pool are counted. -/
theorem changeVoteList_of_validateVote {err : Option VoteErr}
    (h : validateVote g d votes e = some (e', err)) (diff : Int) :
    ∃ r, changeVoteList g d votes e diff = some (e', r) ∧ (err = none → r.isSome = true) := by
  induction votes generalizing e diff with
  | nil => cases h; exact ⟨_, rfl, fun _ => rfl⟩
  | cons v votes ih =>
    unfold validateVote at h
    split at h
    · cases h
    rename_i c hc
    split at h
    · rename_i hop
      simp only [changeVoteList, hop, hc]
      split at h
      · cases h; exact ⟨_, if_pos ‹_›, fun h => by cases h⟩
      rw [if_neg ‹_›]
      split at h
      · cases h; exact ⟨_, if_pos ‹_›, fun h => by cases h⟩
      rw [if_neg ‹_›]
      exact ih h _
    · rename_i hop
      simp only [changeVoteList, hop, hc]
      split at h
      · rw [if_pos ‹_›]
        exact ih h _
      · cases h; exact ⟨_, if_neg ‹_›, fun h => by cases h⟩
    · cases h
      refine ⟨none, ?_, fun h => by cases h⟩
      unfold changeVoteList
      split <;> simp_all

/-! ## The cells of the stored list -/

/-- The lists that a request passes through in an array of `cap` cells: up to a vote that is
refused, or one that moves the list to a larger array. -/
def passes (d : List Address) (cap : Nat) : List Vote → List Address → List (List Address)
  | [], l => [l]
  | v :: votes, l =>
    l :: match markOf v with
    | some (.add c) =>
      if c ∉ l ∧ c ∈ d ∧ l.length < cap then passes d cap votes (l ++ [c]) else []
    | some (.remove c) => if c ∈ l then passes d cap votes (l.erase c) else []
    | none => []

def lastAt {α : Type} (i : Nat) : List (List α) → Option α
  | [] => none
  | l :: ls => (lastAt i ls).or l[i]?

theorem prev_walk_of_not_shared (h : e.shared = false) : (walk g d votes e).prev = e.prev := by
  induction votes generalizing e with
  | nil => rfl
  | cons v votes ih =>
    unfold walk
    split
    · rename_i c _
      obtain ⟨-, hprev, hshared⟩ := e.prev_of_not_shared g 0 c h
      split
      · rw [ih hshared, hprev]
      · rfl
    · rename_i c _
      obtain ⟨⟨hprev, hshared⟩, -⟩ := e.prev_of_not_shared g 0 c h
      split
      · rw [ih hshared, hprev]
      · rfl
    · rfl

theorem lastAt_passes_or (cap : Nat) (l : List Address) (i : Nat) (x : Option Address) :
    (lastAt i (passes d cap votes l)).or (l[i]?.or x) = (lastAt i (passes d cap votes l)).or x := by
  cases votes <;>
  · unfold passes lastAt
    rw [Option.or_assoc, Option.or_assoc, ← @Option.or_assoc _ l[i]?, Option.or_self]

/-- **What a request leaves in the array it started in**: in each cell the entry of the last list
that reaches it. -/
theorem cell_walk (hs : e.shared = true) (i : Nat) : (walk g d votes e).prev.arr[i]? =
      (lastAt i (passes d e.cur.arr.length votes e.cur.view)).or e.cur.arr[i]? := by
  have hself : ∀ e : Edit Address, e.cur.arr[i]? = e.cur.view[i]?.or e.cur.arr[i]? :=
    fun e => getElem?_arr _ rfl i
  induction votes generalizing e with
  | nil =>
    show e.prev.arr[i]? = e.cur.view[i]?.or e.cur.arr[i]?
    rw [e.arr_eq hs]
    exact hself e
  | cons v votes ih =>
    unfold walk passes lastAt
    rw [Option.or_assoc, ← hself e]
    split
    · rename_i c _
      by_cases hadd : c ∉ e.cur.view ∧ c ∈ d
      · rw [if_pos hadd]
        by_cases hcap : e.cur.len < e.cur.arr.length
        · rw [if_pos ⟨hadd.1, hadd.2, by rwa [length_view]⟩,
            ih ((e.shared_push g 0 c hcap).trans hs), e.length_arr_push g 0 c hcap,
            e.cells_push g 0 c hcap, ← view_cur_push g 0, lastAt_passes_or]
        · -- the list leaves the array
          have hmoved : (e.push g 0 c).prev = e.prev ∧ (e.push g 0 c).shared = false := by
            unfold push
            rw [dif_neg hcap]
            exact ⟨rfl, rfl⟩
          rw [if_neg fun h => hcap (by rw [← length_view]; exact h.2.2),
            prev_walk_of_not_shared hmoved.2, hmoved.1, e.arr_eq hs]
          rfl
      · rw [if_neg hadd, if_neg fun h => hadd ⟨h.1, h.2.1⟩, e.arr_eq hs]
        rfl
    · rename_i c _
      by_cases hmem : c ∈ e.cur.view
      · rw [if_pos hmem, if_pos hmem, ih ((e.shared_remove c).trans hs), e.length_arr_remove c,
          e.cells_remove c, ← view_cur_remove, lastAt_passes_or]
      · rw [if_neg hmem, if_neg hmem, e.arr_eq hs]
        rfl
    · rw [e.arr_eq hs]
      rfl

/-- Each position of the list has its entry in the last of the lists that reach it. -/
def Undisturbed (d : List Address) (votes : List Vote) (s : Slice Address) : Prop :=
  ∀ i < s.len, lastAt i (passes d s.arr.length votes s.view) = s.view[i]?

theorem len_prev_walk : (walk g d votes e).prev.len = e.prev.len := by
  induction votes generalizing e with
  | nil => rfl
  | cons v votes ih =>
    unfold walk
    split
    · split
      · rw [ih, len_prev_push]
      · rfl
    · split
      · rw [ih, len_prev_remove]
      · rfl
    · rfl

theorem view_walk_iff (s : Slice Address) :
    (walk g d votes (start s)).prev.view = s.view ↔ Undisturbed d votes s := by
  have hlen : (walk g d votes (start s)).prev.len = s.len := len_prev_walk
  have hcell : ∀ i < s.len, (walk g d votes (start s)).prev.view[i]? =
      lastAt i (passes d s.arr.length votes s.view) := by
    intro i hi
    have hsome : s.view[i]? ≠ none := by
      rw [ne_eq, getElem?_eq_none_iff, length_view]
      omega
    have hlast : lastAt i (passes d s.arr.length votes s.view) ≠ none := by
      intro hnone
      have hor := @lastAt_passes_or d votes s.arr.length s.view i none
      rw [hnone, none_or, or_none] at hor
      exact hsome hor
    have hwalk := @cell_walk g d votes (start s) rfl i
    rw [view, getElem?_take_of_lt (hlen ▸ hi), hwalk]
    show (lastAt i (passes d s.arr.length votes s.view)).or s.arr[i]? = _
    cases hl : lastAt i (passes d s.arr.length votes s.view) with
    | none => exact absurd hl hlast
    | some => rfl
  constructor
  · intro heq i hi
    rw [← hcell i hi, heq]
  · intro hund
    refine ext_getElem? fun i => ?_
    by_cases hi : i < s.len
    · rw [hcell i hi, hund i hi]
    · rw [getElem?_eq_none (by rw [length_view]; omega),
        getElem?_eq_none (by rw [length_view]; omega)]

end Walk

/-! ## The stored list -/

theorem getVoteList_setVoteCells (db : StateDB) (user : Address) (s : Slice Address)
    (h : db.getStateObject user = none → s.view = []) :
    ((db.setVoteCells user s).getVoteList user).view = s.view := by
  unfold StateDB.setVoteCells StateDB.getVoteList
  cases ho : db.getStateObject user with
  | none =>
    rw [ho, h ho]
    rfl
  | some =>
    rw [StateDB.getStateObject_setStateObject, if_pos rfl]
    rfl

/-- **When the checks of a vote keep the stored list.** -/
theorem checks_keep_list_iff (g : Growth) (d : List Address) (votes : List Vote) (user : Address)
    (db : StateDB) :
    (∀ err db', validateVoteOf g d votes user db = some (err, db') →
      ((db'.getVoteList user).view = (db.getVoteList user).view ↔
        Undisturbed d votes (db.getVoteList user))) ∧
    (∀ e, changeVoteList g d votes (Edit.start (db.getVoteList user)) 0 = some (e, none) →
      (((db.setVoteCells user e.prev).getVoteList user).view = (db.getVoteList user).view ↔
        Undisturbed d votes (db.getVoteList user))) := by
  have hkey : (((db.setVoteCells user (walk g d votes (start (db.getVoteList user))).prev
      ).getVoteList user).view = (db.getVoteList user).view ↔
        Undisturbed d votes (db.getVoteList user)) := by
    rw [getVoteList_setVoteCells, view_walk_iff]
    intro hnone
    have hlen : (walk g d votes (start (db.getVoteList user))).prev.len = 0 := by
      rw [len_prev_walk]
      unfold StateDB.getVoteList
      rw [hnone]
      rfl
    rw [view, hlen, take_zero]
  constructor
  · intro err db' h
    obtain ⟨⟨e, err'⟩, hv, heq⟩ := map_eq_some_iff.1 h
    cases heq
    obtain ⟨_, hchange, -⟩ := changeVoteList_of_validateVote hv 0
    rw [changeVoteList_walk hchange]
    exact hkey
  · intro e h
    rw [changeVoteList_walk h]
    exact hkey

def votedTrie : Trie :=
  fun a => if a = 1 then some { plainAccount 1 0 with voteList := [7, 8] } else none

theorem checks_keep_list_iff_vote :
    ∃ err db', validateVoteOf doubling [7, 8, 9] [⟨some 9, 0⟩] 1 (.new votedTrie) = some (err, db') ∧
      ((db'.getVoteList 1).view = ((StateDB.new votedTrie).getVoteList 1).view ↔
        Undisturbed [7, 8, 9] [⟨some 9, 0⟩] ((StateDB.new votedTrie).getVoteList 1)) := by
  refine ⟨_, _, rfl, ?_⟩
  exact (checks_keep_list_iff doubling [7, 8, 9] [⟨some 9, 0⟩] 1 (.new votedTrie)).1 _ _ rfl

/-- The pool accepts that address 1 withdraws its vote for 7, and afterwards the list of its state
shows 8 twice. A request that goes on with a vote that was not given is refused, and does the
same. -/
theorem not_checks_keep_list_withdraw :
    (∃ db', validateVoteOf doubling [7, 8] [⟨some 7, 1⟩] 1 (.new votedTrie) = some (none, db') ∧
      (db'.getVoteList 1).view = [8, 8]) ∧
    (∃ e, changeVoteList doubling [7, 8] [⟨some 7, 1⟩, ⟨some 9, 1⟩]
        (Edit.start ((StateDB.new votedTrie).getVoteList 1)) 0 = some (e, none) ∧
      (((StateDB.new votedTrie).setVoteCells 1 e.prev).getVoteList 1).view = [8, 8]) ∧
    ((StateDB.new votedTrie).getVoteList 1).view = [7, 8] := by
  refine ⟨⟨_, rfl, ?_⟩, ⟨_, rfl, ?_⟩, ?_⟩ <;> decide +kernel

end GoAoa.Core
