import GoAoa.Lib.Ballot
import GoAoa.State.StateDB

/-!
# Voting

`Vote` and `changeVoteList` of `core/evm.go`. The list that `changeVoteList` works on starts as
the account's own slice, so a withdrawal moves entries of the stored list as well, before it is
known whether the vote is accepted. What the account is shown is a ballot that is cast
(`changeVoteList_cast`), and one AOA for each entry.
-/

namespace GoAoa.State

open List Edit

def aoa : Int := 10 ^ 18

/-- `changeVoteList`: the list under change, and the amount to lock. `none` for the amount is
`ErrVote`; a vote without a candidate panics. -/
def changeVoteList (g : Growth) (delegateList : List Address) :
    List Vote → Edit Address → Int → Option (Edit Address × Option Int)
  | [], e, diff => some (e, some (diff * aoa))
  | vote :: votes, e, diff =>
    match vote.operation with
    | 0 =>
      match vote.candidate with
      | none => none
      | some c =>
        if c ∈ e.cur.view then some (e, none)
        else if c ∉ delegateList then some (e, none)
        else changeVoteList g delegateList votes (e.push g 0 c) (diff + 1)
    | 1 =>
      match vote.candidate with
      | none => none
      | some c =>
        if c ∈ e.cur.view then changeVoteList g delegateList votes (e.remove c) (diff - 1)
        else some (e, none)
    | _ => some (e, none)

section

variable {g : Growth} {d : List Address} {v : Vote} {votes : List Vote} {e e' : Edit Address}
  {diff n : Int} {r : Option Int}

/-- What one round of the loop does: it refuses the vote, or adds or withdraws one entry. -/
theorem changeVoteList_cons (h : changeVoteList g d (v :: votes) e diff = some (e', r)) :
    (r = none ∧ e' = e) ∨
    (∃ c, v.operation = 0 ∧ v.candidate = some c ∧ c ∉ e.cur.view ∧ c ∈ d ∧
      changeVoteList g d votes (e.push g 0 c) (diff + 1) = some (e', r)) ∨
    ∃ c, v.operation = 1 ∧ v.candidate = some c ∧ c ∈ e.cur.view ∧
      changeVoteList g d votes (e.remove c) (diff - 1) = some (e', r) := by
  unfold changeVoteList at h
  split at h
  · rename_i hop
    split at h
    · cases h
    · rename_i c hc
      split at h
      · cases h; exact .inl ⟨rfl, rfl⟩
      · split at h
        · cases h; exact .inl ⟨rfl, rfl⟩
        · exact .inr (.inl ⟨c, hop, hc, ‹_›, not_not.1 ‹_›, h⟩)
  · rename_i hop
    split at h
    · cases h
    · rename_i c hc
      split at h
      · exact .inr (.inr ⟨c, hop, hc, ‹_›, h⟩)
      · cases h; exact .inl ⟨rfl, rfl⟩
  · cases h; exact .inl ⟨rfl, rfl⟩

def markOf (v : Vote) : Option (Ballot.Mark Address) :=
  match v.operation, v.candidate with
  | 0, some c => some (.add c)
  | 1, some c => some (.remove c)
  | _, _ => none

/-- **Accepted votes are a ballot that is cast**, and the amount is one AOA for each entry that
the list has grown by. -/
theorem changeVoteList_cast (h : changeVoteList g d votes e diff = some (e', some n)) :
    ∃ ms, votes.mapM markOf = some ms ∧ Ballot.cast (· ∈ d) ms e.cur.view = some e'.cur.view ∧
      n = (diff + Ballot.total ms) * aoa := by
  induction votes generalizing e diff with
  | nil =>
    cases h
    exact ⟨[], rfl, rfl, by simp [Ballot.total]⟩
  | cons v votes ih =>
    rcases changeVoteList_cons h with ⟨hr, -⟩ | ⟨c, hop, hc, hnot, hd, h⟩ | ⟨c, hop, hc, hmem, h⟩
    · cases hr
    · obtain ⟨ms, hms, hcast, hn⟩ := ih h
      rw [view_cur_push] at hcast
      refine ⟨.add c :: ms, ?_, ?_, ?_⟩
      · simp [mapM_cons, markOf, hop, hc, hms]
      · rw [Ballot.cast, if_neg hnot, if_pos hd]
        exact hcast
      · rw [hn, Ballot.total_add, Int.add_assoc]
    · obtain ⟨ms, hms, hcast, hn⟩ := ih h
      rw [view_cur_remove] at hcast
      refine ⟨.remove c :: ms, ?_, ?_, ?_⟩
      · simp [mapM_cons, markOf, hop, hc, hms]
      · rw [Ballot.cast, if_pos hmem]
        exact hcast
      · rw [hn, Ballot.total_remove, ← Int.add_assoc, Int.sub_eq_add_neg]

theorem changeVoteList_adds (hadd : ∀ v ∈ votes, v.operation ≠ 1)
    (hlen : e.prev.len ≤ e.cur.len) (h : changeVoteList g d votes e diff = some (e', r)) :
    e'.prev.view = e.prev.view ∧ ∀ n, r = some n → n = (diff + votes.length) * aoa := by
  induction votes generalizing e diff with
  | nil => cases h; simp
  | cons v votes ih =>
    rcases changeVoteList_cons h with ⟨rfl, rfl⟩ | ⟨c, -, -, -, -, h⟩ | ⟨c, hop, -⟩
    · exact ⟨rfl, fun n hn => by cases hn⟩
    · obtain ⟨hview, hlen'⟩ := e.prev_push g 0 c hlen
      obtain ⟨hprev, hdiff⟩ := ih (fun v hv => hadd v (mem_cons_of_mem _ hv)) hlen' h
      refine ⟨hprev.trans hview, fun n hn => (hdiff n hn).trans ?_⟩
      rw [length_cons]
      congr 1
      omega
    · exact absurd hop (hadd v mem_cons_self)

theorem len_prev_changeVoteList (h : changeVoteList g d votes e diff = some (e', r)) :
    e'.prev.len = e.prev.len := by
  induction votes generalizing e diff with
  | nil => cases h; rfl
  | cons v votes ih =>
    rcases changeVoteList_cons h with ⟨-, rfl⟩ | ⟨c, -, -, -, -, h⟩ | ⟨c, -, -, -, h⟩
    · rfl
    · rw [ih h, len_prev_push]
    · rw [ih h, len_prev_remove]

end

def Field.isVotes : Field → Bool
  | .balance _ | .lockBalance _ | .voteList _ => true
  | _ => false

def Write.Votes (w : Write) : Prop := w = .touch ∨ ∃ v : Field, v.isVotes = true ∧ w = .field v

namespace StateDB

def getVoteList (db : StateDB) (a : Address) : Slice Address :=
  ((db.getStateObject a).map (·.data.voteList)).getD (Slice.ofList [] 0 0)

/-- `GetLockBalance`; `none` is the nil pointer. -/
def getLockBalance (db : StateDB) (a : Address) : Option Int :=
  match db.getStateObject a with
  | none => some 0
  | some o => o.data.lockBalance

/-- `Vote`: whether the votes are accepted. A nil map of delegates panics, and so does a nil lock
balance. -/
def vote (g : Growth) (maxElectDelegate : Int) (delegateList : Option (List Address))
    (user : Address) (votes : List Vote) (db : StateDB) : Option (Bool × StateDB) :=
  match delegateList with
  | none => none
  | some d =>
    match changeVoteList g d votes (start (db.getVoteList user)) 0 with
    | none => none
    | some (e, result) =>
      let db := db.setVoteCells user e.prev
      match result, db.getLockBalance user with
      | none, _ => some (false, db)
      | some _, none => none
      | some diff, some lock =>
        if aoa * maxElectDelegate < lock + diff then some (false, db)
        else
          ((db.subBalance user diff).addLockBalance user diff).map fun db =>
            (true, db.setVoteList user e.cur)

/-- What a vote does: it is refused, with whatever happened to the stored cells, or the amount
moves from the balance to the lock and the new list is set. -/
theorem vote_cases {g : Growth} {m : Int} {delegateList : Option (List Address)} {user : Address}
    {votes : List Vote} {db db' : StateDB} {ok : Bool}
    (h : db.vote g m delegateList user votes = some (ok, db')) :
    ∃ d e result, delegateList = some d ∧
      changeVoteList g d votes (start (db.getVoteList user)) 0 = some (e, result) ∧
      ((ok = false ∧ db' = db.setVoteCells user e.prev) ∨
        (ok = true ∧ ∃ diff lock db1, result = some diff ∧
          (db.setVoteCells user e.prev).getLockBalance user = some lock ∧
          lock + diff ≤ aoa * m ∧
          ((db.setVoteCells user e.prev).subBalance user diff).addLockBalance user diff = some db1 ∧
          db' = db1.setVoteList user e.cur)) := by
  unfold vote at h
  split at h
  · cases h
  · rename_i d
    split at h
    · cases h
    · rename_i e result hc
      refine ⟨d, e, result, rfl, hc, ?_⟩
      dsimp only at h
      split at h
      · cases h; exact .inl ⟨rfl, rfl⟩
      · cases h
      · rename_i diff lock hl
        split at h
        · cases h; exact .inl ⟨rfl, rfl⟩
        · rename_i hle
          obtain ⟨db1, h1, heq⟩ := Option.map_eq_some_iff.1 h
          cases heq
          exact .inr ⟨rfl, diff, lock, db1, rfl, hl, Int.not_lt.1 hle, h1, rfl⟩

/-- **The rule for votes.** What holds once the stored cells have moved, and is kept by edits of the
balance, the lock and the list of the voter, holds afterwards. -/
theorem vote_rule {g : Growth} {m : Int} {delegateList : Option (List Address)} {user : Address}
    {votes : List Vote} {db db' : StateDB} {ok : Bool} {P : StateDB → Prop}
    (h : db.vote g m delegateList user votes = some (ok, db'))
    (hcells : ∀ d e r, delegateList = some d →
      changeVoteList g d votes (start (db.getVoteList user)) 0 = some (e, r) →
      P (db.setVoteCells user e.prev))
    (hedit : ∀ t f, P t → (∀ o w, f o = some w → w.Votes) → P (t.edit user f)) : P db' := by
  obtain ⟨d, e, r, hd, he, ⟨-, rfl⟩ | ⟨-, diff, lock, db1, -, -, -, hlock, rfl⟩⟩ := vote_cases h
  · exact hcells d e r hd he
  · have hsub : P ((db.setVoteCells user e.prev).subBalance user diff) := by
      refine hedit _ _ (hcells d e r hd he) fun o w hw => ?_
      split at hw
      · cases hw
      · cases hw; exact .inr ⟨_, rfl, rfl⟩
    have hadd : P db1 := by
      unfold addLockBalance at hlock
      split at hlock
      · cases hlock
        refine hedit _ _ hsub fun o w hw => ?_
        split at hw
        · cases hw; exact .inl rfl
        · cases hw
      · split at hlock
        · cases hlock
        · cases hlock
          exact hedit _ _ hsub fun o w hw => by cases hw; exact .inr ⟨_, rfl, rfl⟩
    exact hedit _ _ hadd fun o w hw => by cases hw; exact .inr ⟨_, rfl, rfl⟩

end StateDB

end GoAoa.State
