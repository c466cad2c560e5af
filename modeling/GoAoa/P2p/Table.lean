import GoAoa.Lib.Heap

/-!
# Random nodes of the discovery table

`Table.ReadRandomNodes` of `p2p/discover`. The heads of the shuffled buckets go to the buffer one
after the other, round and round; a bucket that is used up is removed. `none` is an index out of
range. The count comes from the loop variable, which the turn that empties the last bucket leaves
behind by one and the end of the buffer does not.
-/

namespace GoAoa.P2p

open List

variable {Node : Type}

def consNet : UInt8 := 2

/-- The buckets of the common and of the consensus network. A node is in a network once. -/
structure Table (Node : Type) where
  buckets : List (List Node)
  consBuckets : List (List Node)
  nodup : buckets.flatten.Nodup
  consNodup : consBuckets.flatten.Nodup

namespace Table

def bucketsOf (t : Table Node) (netType : UInt8) : List (List Node) :=
  if netType = consNet then t.consBuckets else t.buckets

abbrev nodes (t : Table Node) (netType : UInt8) : List Node := (t.bucketsOf netType).flatten

/-- `rand i` is the number that `randUint` draws at `i`. -/
def shuffle (rand : Nat → Nat) : Nat → List (List Node) → List (List Node)
  | 0, l => l
  | i + 1, l => shuffle rand i (Heap.swap l (i + 1) (rand (i + 1) % (i + 1)))

def takeHead (buckets : List (List Node)) (j : Nat) : Option (Node × List (List Node)) :=
  match buckets[j]? with
  | some (x :: b) => some (x, if b.isEmpty then buckets.eraseIdx j else buckets.set j b)
  | _ => none

/-- The loop, with `left` entries of the buffer to go: what it writes, and `i` at its end. -/
def moveHeads : (left : Nat) → List (List Node) → (i j : Nat) → Option (List Node × Nat)
  | 0, _, i, _ => some ([], i)
  | left + 1, buckets, i, j =>
    (takeHead buckets j).bind fun (x, rest) =>
      if rest.isEmpty then some ([x], i)
      else (moveHeads left rest (i + 1) ((j + 1) % rest.length)).map fun (xs, n) => (x :: xs, n)

/-- What is written to a buffer of the length `len`, from its first entry on, and the count. -/
def readRandomNodes (t : Table Node) (rand : Nat → Nat) (len : Nat) (netType : UInt8) :
    Option (List Node × Nat) :=
  let buckets := (t.bucketsOf netType).filter fun b => !b.isEmpty
  if buckets.isEmpty then some ([], 0)
  else (moveHeads len (shuffle rand (buckets.length - 1) buckets) 0 0).map fun (xs, i) => (xs, i + 1)

theorem nodup_nodes (t : Table Node) (netType : UInt8) : (t.nodes netType).Nodup := by
  unfold nodes bucketsOf
  split
  · exact t.consNodup
  · exact t.nodup

theorem shuffle_perm (rand : Nat → Nat) (i : Nat) (l : List (List Node)) :
    (shuffle rand i l).Perm l := by
  induction i generalizing l with
  | zero => exact .refl l
  | succ i ih => exact (ih _).trans (Heap.swap_perm l _ _)

variable {buckets : List (List Node)} {i j : Nat}

theorem takeHead_spec (hj : j < buckets.length) (hne : ∀ b ∈ buckets, b ≠ []) :
    ∃ x rest, takeHead buckets j = some (x, rest) ∧ (x :: rest.flatten).Perm buckets.flatten ∧
      ∀ b ∈ rest, b ≠ [] := by
  obtain ⟨x, b, hb⟩ := exists_cons_of_ne_nil (hne _ (getElem_mem hj))
  have hperm := (getElem_cons_eraseIdx_perm hj).flatten
  rw [hb, flatten_cons, cons_append] at hperm
  unfold takeHead
  rw [getElem?_eq_getElem hj, hb]
  refine ⟨x, _, rfl, ?_, fun c hc => ?_⟩
  · split
    · rename_i hnil
      rwa [isEmpty_iff.1 hnil] at hperm
    · exact ((set_perm_cons_eraseIdx hj b).flatten.cons x).trans hperm
  · split at hc
    · exact hne c (mem_of_mem_eraseIdx hc)
    · rename_i hnil
      rcases mem_or_eq_of_mem_set hc with hc | rfl
      · exact hne c hc
      · simpa using hnil

theorem length_flatten_pos (hj : j < buckets.length) (hne : ∀ b ∈ buckets, b ≠ []) :
    0 < buckets.flatten.length := by
  obtain ⟨x, rest, -, hperm, -⟩ := takeHead_spec hj hne
  rw [← hperm.length_eq]
  exact Nat.succ_pos _

/-- **The loop.** It writes as many nodes as there are and as the buffer takes, each once. -/
theorem moveHeads_spec {left : Nat} (hj : j < buckets.length) (hne : ∀ b ∈ buckets, b ≠ []) :
    ∃ xs, moveHeads left buckets i j = some (xs, if buckets.flatten.length ≤ left
        then i + buckets.flatten.length - 1 else i + left) ∧
      xs.length = min left buckets.flatten.length ∧ xs.Subperm buckets.flatten := by
  induction left generalizing buckets i j with
  | zero =>
    have hpos := length_flatten_pos hj hne
    exact ⟨[], by rw [moveHeads, if_neg (by omega)]; rfl, by simp, nil_subperm⟩
  | succ left ih =>
    obtain ⟨x, rest, htake, hperm, hrest⟩ := takeHead_spec hj hne
    simp only [moveHeads, htake, Option.bind_some, ← hperm.length_eq, length_cons]
    cases rest with
    | nil => exact ⟨[x], by simp, by simp, hperm.subperm⟩
    | cons b bs =>
      obtain ⟨xs, hrun, hlen, hsub⟩ := @ih (b :: bs) (i + 1) ((j + 1) % (b :: bs).length)
        (Nat.mod_lt _ (by simp)) hrest
      refine ⟨x :: xs, ?_, by rw [length_cons, hlen]; omega, ?_⟩
      · rw [hrun]
        have hpos := @length_flatten_pos _ _ 0 (by simp) hrest
        simp only [isEmpty_cons, Bool.false_eq_true, ite_false, Option.map_some]
        congr 2
        split <;> split <;> omega
      · exact ((subperm_cons x).2 hsub).trans hperm.subperm

/-- **The count is right if the buffer has room for all nodes of the network, and only then.** -/
theorem readRandomNodes_count_iff (t : Table Node) (rand : Nat → Nat) (len : Nat)
    (netType : UInt8) :
    (∃ xs n, t.readRandomNodes rand len netType = some (xs, n) ∧
      n = min len (t.nodes netType).length ∧ xs.length = n ∧ xs.Nodup ∧
      ∀ x ∈ xs, x ∈ t.nodes netType) ↔ (t.nodes netType).length ≤ len := by
  unfold readRandomNodes
  have hflat : ((t.bucketsOf netType).filter fun b => !b.isEmpty).flatten = t.nodes netType :=
    flatten_filter_not_isEmpty
  have hnodup := t.nodup_nodes netType
  generalize hbs : (t.bucketsOf netType).filter (fun b => !b.isEmpty) = buckets at hflat
  rw [← hflat]
  dsimp only
  split
  · rename_i hnil
    simp [isEmpty_iff.1 hnil]
  · rename_i hnil
    have hperm := shuffle_perm rand (buckets.length - 1) buckets
    have hpos := length_pos_iff.2 fun h => hnil (isEmpty_iff.2 h)
    have hne : ∀ b ∈ buckets, b ≠ [] := by
      rw [← hbs]
      simp
    obtain ⟨xs, hrun, hlen, hsub⟩ := @moveHeads_spec _ _ 0 0 len (hperm.length_eq.symm ▸ hpos)
      fun b hb => hne b (hperm.mem_iff.1 hb)
    rw [hperm.flatten.length_eq] at hrun hlen
    obtain ⟨l, hl, hsub⟩ := hsub.trans hperm.flatten.subperm
    have hpos := length_flatten_pos hpos hne
    rw [hrun]
    constructor
    · rintro ⟨xs', n, heq, hn, -⟩
      cases heq
      split at hn <;> omega
    · intro hle
      rw [if_pos hle]
      refine ⟨xs, _, rfl, by omega, by omega, ?_, fun x hx => hsub.subset (hl.mem_iff.2 hx)⟩
      rw [← hflat] at hnodup
      exact hl.nodup_iff.1 (hnodup.sublist hsub)

/-- Two nodes and a buffer for one of them: the count is two. -/
theorem not_readRandomNodes_count : ∃ t : Table Nat,
    min 1 (t.nodes 1).length = 1 ∧ t.readRandomNodes id 1 1 = some ([7], 2) :=
  ⟨⟨[[7, 8]], [], by decide, by decide⟩, by decide⟩

end Table

end GoAoa.P2p
