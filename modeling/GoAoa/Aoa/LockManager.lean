import GoAoa.Dpos.Certificate

/-!
# The lock manager

`aoa/dpos_lock.go`: the pending block of a node and the signatures it collects for each block
hash. Signatures reach the collector through `storeChan`. Go ranges over the map of signatures
in any order; the model keeps the order in which they arrived.
-/

namespace GoAoa.Aoa

open List Option Function Prod GoAoa.Dpos

structure StoreSigns where
  blockHash : Hash
  sign : Bytes
  action : Nat
  address : Address
  deriving DecidableEq, Repr

def approvalsOf (data : List (Address × VoteSign)) : List (Address × VoteSign) :=
  data.filter fun e => e.2.voteAction == approveVote

/-- The signatures for one hash: one for each address, and the number of those that approve. -/
structure BlockSignMap where
  data : List (Address × VoteSign)
  approveVotes : Nat
  nodup : (data.map fst).Nodup
  count : approveVotes = (approvalsOf data).length

namespace BlockSignMap

def empty : BlockSignMap := ⟨[], 0, List.nodup_nil, rfl⟩

def exist (m : BlockSignMap) (a : Address) : Bool := m.data.any fun e => e.1 == a

variable {m : BlockSignMap} {a : Address}

theorem exist_iff : m.exist a ↔ a ∈ m.data.map fst := by
  simp [exist]

theorem nodup_append_of_not_exist (h : ¬ m.exist a)
    (s : VoteSign) : ((m.data ++ [(a, s)]).map fst).Nodup := by
  have hn : a ∉ m.data.map fst := fun hm => h (exist_iff.2 hm)
  rw [map_append, nodup_append]
  refine ⟨m.nodup, nodup_singleton a, fun x hx y hy hxy => hn ?_⟩
  obtain rfl : x = a := hxy.trans (mem_singleton.1 hy)
  exact hx

/-- `put`: an address keeps its first signature. -/
def put (m : BlockSignMap) (a : Address) (s : VoteSign) : BlockSignMap :=
  if h : m.exist a then m
  else
    { data := m.data ++ [(a, s)]
      approveVotes := if s.voteAction = approveVote then m.approveVotes + 1 else m.approveVotes
      nodup := nodup_append_of_not_exist h s
      count := by
        have := m.count
        by_cases ha : s.voteAction = approveVote <;> simp [approvalsOf, ha] at this ⊢ <;> omega }

def countApproveVote (m : BlockSignMap) : Nat := m.approveVotes

theorem mem_put {s : VoteSign} {e : Address × VoteSign}
    (h : e ∈ (m.put a s).data) : e ∈ m.data ∨ e = (a, s) := by
  unfold put at h
  split at h
  · exact .inl h
  · simpa using h

def approvers (m : BlockSignMap) : Finset Address := ((approvalsOf m.data).map fst).toFinset

theorem mem_approvers : a ∈ m.approvers ↔ ∃ s, (a, s) ∈ m.data ∧ s.voteAction = approveVote := by
  simp [approvers, approvalsOf]

theorem card_approvers (m : BlockSignMap) : m.approvers.card = m.approveVotes := by
  have hn : ((approvalsOf m.data).map fst).Nodup :=
    m.nodup.sublist (List.Sublist.map _ filter_sublist)
  rw [approvers, toFinset_card_of_nodup hn, length_map, m.count]

end BlockSignMap

inductive LockErr where
  | pendingBlockExist
  | recover
  | notDelegate (a : Address)
  | alreadyContains (h : Hash) (a : Address)
  deriving DecidableEq, Repr

structure LockManager where
  lockBlock : Option Block
  signMap : Hash → Option BlockSignMap
  storeChan : List StoreSigns

namespace LockManager

def init : LockManager := { lockBlock := none, signMap := fun _ => none, storeChan := [] }

def unlock (l : LockManager) : LockManager := { l with lockBlock := none }

/-- `addPendingBlock`; the timer it starts is an event of its own. -/
def addPendingBlock (l : LockManager) (b : Block) : Except LockErr LockManager :=
  if l.lockBlock.isSome then .error .pendingBlockExist else .ok { l with lockBlock := some b }

/-- `addSignToPendingBlock` up to the channel. -/
def checkSign (C : Crypto) (l : LockManager) (h : Hash) (s : VoteSign) (round : ShuffleList) :
    Except LockErr StoreSigns :=
  match C.recover h s.sign with
  | none => .error .recover
  | some a =>
    if round.contains a = false then .error (.notDelegate a)
    else if (l.signMap h).any (·.exist a) then .error (.alreadyContains h a)
    else .ok ⟨h, s.sign, s.voteAction, a⟩

def addSignToPendingBlock (C : Crypto) (l : LockManager) (h : Hash) (s : VoteSign)
    (round : ShuffleList) : Except LockErr LockManager :=
  (l.checkSign C h s round).map fun st => { l with storeChan := l.storeChan ++ [st] }

def checkBroadcastSignatures (C : Crypto) (h : Hash) (signs : List VoteSign)
    (round : ShuffleList) : Bool :=
  signs.all fun s => (C.recover h s.sign).any round.contains

def commitSigns (amount : Nat) (m : BlockSignMap) : List VoteSign :=
  ((approvalsOf m.data).map snd).take (amount + 1)

/-- `dealBlockSign`: file a signature and, once more than `amount` approve, the map that is
handed on to the commit callback. -/
def dealBlockSign (amount : Nat) (l : LockManager) (st : StoreSigns) :
    LockManager × Option BlockSignMap :=
  let s : VoteSign := ⟨st.sign, st.action⟩
  match l.signMap st.blockHash with
  | none =>
    let m := BlockSignMap.empty.put st.address s
    ({ l with signMap := Function.update l.signMap st.blockHash (some m) },
      if amount < m.countApproveVote then some m else none)
  | some m =>
    if amount < m.countApproveVote then (l, none)
    else
      let m := m.put st.address s
      ({ l with signMap := Function.update l.signMap st.blockHash (some m) },
        if amount < m.countApproveVote then some m else none)

theorem dealBlockSign_storeChan (amount : Nat) (l : LockManager) (st : StoreSigns) :
    (dealBlockSign amount l st).1.storeChan = l.storeChan := by
  unfold dealBlockSign
  split
  · rfl
  · simp only; split <;> rfl

theorem mem_dealBlockSign {amount : Nat} {l : LockManager} {st : StoreSigns} {h : Hash}
    {m : BlockSignMap} (hm : (dealBlockSign amount l st).1.signMap h = some m)
    {e : Address × VoteSign} (he : e ∈ m.data) :
    (∃ m0, l.signMap h = some m0 ∧ e ∈ m0.data) ∨
      (h = st.blockHash ∧ e = (st.address, ⟨st.sign, st.action⟩)) := by
  unfold dealBlockSign at hm
  split at hm
  · simp only [update_apply] at hm
    split at hm
    · rename_i hh
      rw [← some.inj hm] at he
      rcases BlockSignMap.mem_put he with he | he
      · cases he
      · exact .inr ⟨hh, he⟩
    · exact .inl ⟨m, hm, he⟩
  · rename_i m0 hm0
    split at hm
    · exact .inl ⟨m, hm, he⟩
    · simp only [update_apply] at hm
      split at hm
      · rename_i hh
        rw [← some.inj hm] at he
        rcases BlockSignMap.mem_put he with he | he
        · exact .inl ⟨m0, hh ▸ hm0, he⟩
        · exact .inr ⟨hh, he⟩
      · exact .inl ⟨m, hm, he⟩

theorem dealBlockSign_some {amount : Nat} {l : LockManager} {st : StoreSigns} {m : BlockSignMap}
    (h : (dealBlockSign amount l st).2 = some m) :
    amount < m.approvers.card ∧ (dealBlockSign amount l st).1.signMap st.blockHash = some m := by
  rw [m.card_approvers]
  unfold dealBlockSign at h ⊢
  split at h
  · simp only [ite_none_right_eq_some, some.injEq] at h
    obtain ⟨ha, rfl⟩ := h
    exact ⟨ha, by simp⟩
  · simp only at h
    split at h
    · cases h
    · rename_i hamt
      simp only [ite_none_right_eq_some, some.injEq] at h
      obtain ⟨ha, rfl⟩ := h
      exact ⟨ha, by simp [hamt]⟩

end LockManager

end GoAoa.Aoa
