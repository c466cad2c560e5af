import GoAoa.Aoa.Fetcher

/-!
# Announcement accounting

The fetcher counts the announcements of each peer to bound them. `forgetHash` takes an announcement
off the count at whatever stage it is, but when one goes on to the next stage it is forgotten first
and nothing counts it again: the count falls behind what the peer holds, below zero in the end. It
is exact as long as every announcement that comes up for fetching is of a known block.
-/

namespace GoAoa.Aoa.Fetcher

open List Option Function GoAoa.Dpos GoAoa.Core

variable {s : Surroundings} {f f' : Fetcher} {h : Hash} {p : String}

/-! ## What a peer holds -/

def countOf (p : String) (as : List Announce) : Nat := as.countP fun a => a.origin = p

def stageOf {β : Type} (p : String) (g : β → List Announce) (m : AList fun _ : Hash => β) : Nat :=
  (m.entries.map fun e => countOf p (g e.2)).sum

def holding (f : Fetcher) (p : String) : Nat :=
  stageOf p id f.announced + stageOf p ([·]) f.fetching + stageOf p id f.fetched +
    stageOf p ([·]) f.completing

/-- How many announcements the count of `p` lacks. -/
def excess (f : Fetcher) (p : String) : Int := f.holding p - f.announces p

section Stage

variable {β : Type} (g : β → List Announce) (m : AList fun _ : Hash => β)

theorem stageOf_erase (p : String) (h : Hash) :
    stageOf p g m = countOf p ((m.lookup h).elim [] g) + stageOf p g (m.erase h) := by
  have hlist : ∀ l : List (Sigma fun _ => β), (l.map fun e => countOf p (g e.2)).sum =
        countOf p ((l.dlookup h).elim [] g) + ((l.kerase h).map fun e => countOf p (g e.2)).sum := by
    intro l
    induction l with
    | nil => simp [countOf]
    | cons e =>
      obtain ⟨k, b⟩ := e
      by_cases hk : h = k
      · subst hk; simp
      · rw [dlookup_cons_ne _ _ hk, kerase_cons_ne hk]
        simp only [map_cons, sum_cons]
        omega
  exact hlist m.entries

theorem stageOf_insert (p : String) (h : Hash) (b : β) :
    stageOf p g (m.insert h b) = countOf p (g b) + stageOf p g (m.erase h) := rfl

end Stage

theorem announces_forgetHash (f : Fetcher) (h : Hash) (p : String) :
    (f.forgetHash h).announces p = f.announces p - countOf p (f.held h) := by
  unfold forgetHash
  generalize f.held h = as
  generalize f.announces = c
  induction as generalizing c with
  | nil => simp [countOf]
  | cons a as ih =>
    rw [foldl_cons, ih]
    by_cases ha : p = a.origin
    · simp [countOf, ha]; omega
    · simp [countOf, ha, Ne.symm ha]

/-- Forgetting a hash takes as much off the count as off the stages. -/
theorem excess_forgetHash (f : Fetcher) (h : Hash) (p : String) :
    (f.forgetHash h).excess p = f.excess p := by
  have h1 := stageOf_erase id f.announced p h
  have h2 := stageOf_erase ([·]) f.fetching p h
  have h3 := stageOf_erase id f.fetched p h
  have h4 := stageOf_erase ([·]) f.completing p h
  have hheld : countOf p (f.held h) = countOf p ((f.announced.lookup h).elim [] id) +
      countOf p ((f.fetching.lookup h).elim [] ([·])) +
      countOf p ((f.fetched.lookup h).elim [] id) +
      countOf p ((f.completing.lookup h).elim [] ([·])) := by
    unfold held countOf
    rw [countP_append, countP_append, countP_append]
    cases f.announced.lookup h <;> cases f.fetching.lookup h <;> cases f.fetched.lookup h <;>
      cases f.completing.lookup h <;> rfl
  unfold excess holding
  rw [announces_forgetHash]
  simp only [forgetHash]
  omega

/-! ## Turns without fetches -/

/-- The announcements that come up for fetching are of a block that is not known. -/
def Wanted (s : Surroundings) (e : Sigma fun _ : Hash => List Announce) : Prop :=
  s.known e.1 = false ∧ ∃ a ∈ e.2.head?, arriveTimeout - gatherSlack < s.now - a.time

def Quiet (t : Turn) (f : Fetcher) : Prop :=
  ∀ pick, t.input = .fetchTimer pick → ∀ e ∈ f.announced.entries, ¬Wanted t.surroundings e

structure Accounted (f : Fetcher) : Prop where
  exact : ∀ p, f.announces p = f.holding p
  nonneg : ∀ p, 0 ≤ f.announces p
  bounded : ∀ p, f.holding p ≤ hashLimit

/-- The count is exact, and nothing has gone past the first stage. -/
structure Waiting (f : Fetcher) : Prop where
  fetching : f.fetching = ∅
  fetched : f.fetched = ∅
  completing : f.completing = ∅
  exact : ∀ p, f.excess p = 0
  bounded : ∀ p, f.announces p ≤ hashLimit

namespace Waiting

variable (hw : Waiting f)
include hw

theorem accounted : Accounted f := by
  have hexact : ∀ p, f.announces p = f.holding p := fun p => by
    have := hw.exact p
    unfold excess at this
    omega
  refine ⟨hexact, fun p => ?_, fun p => ?_⟩
  · rw [hexact]; omega
  · rw [← hexact]; exact hw.bounded p

theorem of_stages (hs : (f'.announces, f'.announced, f'.fetching, f'.fetched,
    f'.completing) = (f.announces, f.announced, f.fetching, f.fetched, f.completing)) :
    Waiting f' := by
  simp only [Prod.mk.injEq] at hs
  obtain ⟨h1, h2, h3, h4, h5⟩ := hs
  refine ⟨h3.trans hw.fetching, h4.trans hw.fetched, h5.trans hw.completing, fun p => ?_, ?_⟩
  · rw [← hw.exact p]
    unfold excess holding
    rw [h1, h2, h3, h4, h5]
  · rw [h1]; exact hw.bounded

theorem forgetHash (h : Hash) : Waiting (f.forgetHash h) where
  fetching := by rw [Fetcher.forgetHash, hw.fetching]; rfl
  fetched := by rw [Fetcher.forgetHash, hw.fetched]; rfl
  completing := by rw [Fetcher.forgetHash, hw.completing]; rfl
  exact p := (excess_forgetHash f h p).trans (hw.exact p)
  bounded p := by
    have := hw.bounded p
    rw [announces_forgetHash]
    omega

theorem forgetBlock (h : Hash) : Waiting (f.forgetBlock h) := by
  unfold Fetcher.forgetBlock
  split
  · exact hw
  · exact hw.of_stages rfl

theorem enqueue (peer : String) (b : Block) : Waiting (f.enqueue s peer b) := by
  unfold Fetcher.enqueue
  dsimp only
  split
  · exact hw.forgetHash _
  · split
    · exact hw.forgetHash _
    · split
      · exact hw
      · exact hw.of_stages rfl

theorem notify (a : Announce) : Waiting (f.notify s a) := by
  unfold Fetcher.notify
  dsimp only
  split
  · exact hw
  split
  · exact hw
  split
  · exact hw
  split
  · exact hw
  have hcount : ∀ p, update f.announces a.origin (f.announces a.origin + 1) p =
      f.announces p + countOf p [a] := fun p => by
    by_cases ha : p = a.origin
    · simp [countOf, ha]
    · simp [countOf, ha, Ne.symm ha]
  refine ⟨hw.fetching, hw.fetched, hw.completing, fun p => ?_, fun p => ?_⟩
  · have hexact := hw.exact p
    have herase := stageOf_erase id f.announced p a.hash
    have happend : countOf p ((f.announced.lookup a.hash).getD [] ++ [a]) =
        countOf p ((f.announced.lookup a.hash).elim [] id) + countOf p [a] := by
      cases f.announced.lookup a.hash <;> simp [countOf]
    unfold excess holding at hexact ⊢
    dsimp only
    rw [stageOf_insert, hcount, id_eq, happend]
    omega
  · show update f.announces a.origin _ p ≤ hashLimit
    rw [update_apply]
    split
    · omega
    · exact hw.bounded p

theorem next (i : Nat) : Waiting (f.next s i) := by
  unfold Fetcher.next
  split
  · exact hw
  · have herase : Waiting { f with queue := f.queue.eraseIdx i } := hw.of_stages rfl
    dsimp only
    split
    · exact hw
    · split
      · exact herase.forgetBlock _
      · exact hw.of_stages rfl

theorem runImport {i : Nat} (hrun : f.runImport s i = some f') : Waiting f' := by
  unfold Fetcher.runImport at hrun
  split at hrun
  · cases hrun; exact hw
  · obtain ⟨f1, himport, rfl⟩ := map_eq_some_iff.1 hrun
    obtain ⟨-, rfl⟩ := importBlock_effects himport
    exact hw.of_stages rfl

theorem done (i : Nat) : Waiting (f.done i) := by
  unfold Fetcher.done
  split
  · exact hw
  · rename_i h _
    have herase : Waiting { f with finished := f.finished.eraseIdx i } := hw.of_stages rfl
    exact (herase.forgetHash h).forgetBlock h

theorem filterHeaders (peer : String) (time : Int) (headers : List Header) :
    f.filterHeaders s peer time headers = some f := by
  have hfold : headers.foldl (filterHeader s peer time) (f, ⟨[], []⟩) = (f, ⟨[], []⟩) := by
    induction headers with
    | nil => rfl
    | cons header headers ih =>
      rw [foldl_cons, filterHeader]
      simpa [hw.fetching] using ih
  unfold Fetcher.filterHeaders
  rw [hfold]
  rfl

theorem filterBodies (peer : String) (bodies : List (List Transaction)) :
    f.filterBodies s peer bodies = some f := by
  have hfold : bodies.foldlM (filterBody s peer) (f, []) = some (f, []) := by
    induction bodies with
    | nil => rfl
    | cons txs bodies ih =>
      rw [foldlM_cons, filterBody, hw.completing]
      exact ih
  unfold Fetcher.filterBodies
  rw [hfold]
  rfl

end Waiting

/-! ## The fetch timer -/

/-- A hash of the timer: it is left, or forgotten, or it goes on to be fetched uncounted. -/
theorem fetchOne_cases {pick : Hash → Nat} {e : Sigma fun _ : Hash => List Announce}
    (hrun : f.fetchOne s pick e.1 e.2 = some f') :
    (¬Wanted s e ∧ (f' = f ∨ f' = f.forgetHash e.1)) ∨
      Wanted s e ∧ ∃ q, ∀ p, f'.excess p = f.excess p + if p = q then 1 else 0 := by
  obtain ⟨h, as⟩ := e
  unfold fetchOne at hrun
  cases as with
  | nil => cases hrun
  | cons first as =>
    dsimp only at hrun
    split at hrun
    · rename_i hdue
      split at hrun
      · rename_i hknown
        cases hrun
        exact .inl ⟨fun hw => by simp [hw.1] at hknown, .inr rfl⟩
      · rename_i hknown
        cases hrun
        refine .inr ⟨⟨by simpa using hknown, first, rfl, hdue⟩, ?_⟩
        refine ⟨((first :: as).getD (pick h % (first :: as).length) first).origin, fun p => ?_⟩
        generalize (first :: as).getD (pick h % (first :: as).length) first = a
        have hforget := excess_forgetHash f h p
        have herase := stageOf_erase ([·]) (f.forgetHash h).fetching p h
        have hnone : (f.forgetHash h).fetching.lookup h = none := AList.lookup_erase _ _
        rw [hnone] at herase
        have hone : countOf p [a] = if p = a.origin then 1 else 0 := by
          simp [countOf, eq_comm]
        rw [← hforget]
        unfold excess holding perform
        rw [stageOf_insert, hone, herase]
        simp only [countOf, elim_none, countP_nil]
        split <;> omega
    · rename_i hdue
      cases hrun
      refine .inl ⟨fun hw => hdue ?_, .inl rfl⟩
      obtain ⟨-, a, ha, hdue'⟩ := hw
      cases ha
      exact hdue'

theorem fetchTimer_excess {pick : Hash → Nat} {es : List (Sigma fun _ : Hash => List Announce)}
    (hrun : es.foldlM (fun f e => f.fetchOne s pick e.1 e.2) f = some f') :
    (∀ p, f.excess p ≤ f'.excess p) ∧ ((∀ e ∈ es, ¬Wanted s e) → Waiting f → Waiting f') ∧
      ((∃ e ∈ es, Wanted s e) → ∃ p, f.excess p < f'.excess p) := by
  induction es generalizing f with
  | nil => cases hrun; exact ⟨fun _ => le_refl _, fun _ hw => hw, fun ⟨_, he, _⟩ => nomatch he⟩
  | cons e es ih =>
    obtain ⟨f1, hone, hrun⟩ := bind_eq_some_iff.1 hrun
    obtain ⟨hle, hquiet, hgrow⟩ := ih hrun
    rcases fetchOne_cases hone with ⟨hnot, hf⟩ | ⟨hwant, q, hq⟩
    · have hexcess : ∀ p, f1.excess p = f.excess p := fun p => by
        rcases hf with rfl | rfl
        · rfl
        · exact excess_forgetHash f e.1 p
      refine ⟨fun p => hexcess p ▸ hle p, fun hall hw => ?_, fun ⟨x, hx, hwx⟩ => ?_⟩
      · refine hquiet (fun x hx => hall x (mem_cons_of_mem _ hx)) ?_
        rcases hf with rfl | rfl
        · exact hw
        · exact hw.forgetHash e.1
      · rcases mem_cons.1 hx with rfl | hx
        · exact absurd hwx hnot
        · obtain ⟨p, hp⟩ := hgrow ⟨x, hx, hwx⟩
          exact ⟨p, hexcess p ▸ hp⟩
    · refine ⟨fun p => ?_, fun hall => absurd hwant (hall e mem_cons_self), fun _ => ⟨q, ?_⟩⟩
      · have := hle p
        rw [hq] at this
        split at this <;> omega
      · have := hle q
        rw [hq, if_pos rfl] at this
        omega

/-! ## Runs -/

theorem Waiting.step {t : Turn} (hw : Waiting f) (hquiet : Quiet t f)
    (hrun : f.step t = some f') : Waiting f' := by
  obtain ⟨s, input⟩ := t
  cases input with
  | notify a => cases hrun; exact hw.notify a
  | inject => cases hrun; exact hw.enqueue _ _
  | done i => cases hrun; exact hw.done i
  | fetchTimer pick => exact (fetchTimer_excess hrun).2.1 (hquiet pick rfl) hw
  | completeTimer pick =>
    have hrun : f.completeTimer s pick = some f' := hrun
    unfold completeTimer at hrun
    rw [hw.fetched] at hrun
    cases hrun
    exact hw
  | headers peer headers => cases (hw.filterHeaders peer s.now headers).symm.trans hrun; exact hw
  | bodies peer bodies => cases (hw.filterBodies peer bodies).symm.trans hrun; exact hw
  | expire =>
    have hrun : some (f.expire s) = some f' := hrun
    unfold expire at hrun
    rw [hw.fetching] at hrun
    cases hrun
    exact hw
  | next i => cases hrun; exact hw.next i
  | runImport => exact hw.runImport hrun

/-- **Announcement accounting.** As long as no announcement goes on to be fetched, the count of each
peer is what it holds, and the next turn keeps it so exactly if nothing is fetched in it. -/
theorem announcements_accounted (ts : List Turn) (f : Fetcher) (t : Turn) (f' : Fetcher)
    (hrun : Run.exec step ts new = some f) (hquiet : Run.Along step Quiet ts new)
    (hstep : f.step t = some f') : Accounted f ∧ (Accounted f' ↔ Quiet t f) := by
  have hw : Waiting f := Run.invariant (fun t f f' hq hw h => hw.step hq h) hquiet
    ⟨rfl, rfl, rfl, fun _ => rfl, fun _ => (by decide : (0 : Int) ≤ hashLimit)⟩ hrun
  refine ⟨hw.accounted, fun hacc pick hinput e he hwant => ?_, fun hq => (hw.step hq hstep).accounted⟩
  obtain ⟨s, input⟩ := t
  cases hinput
  obtain ⟨p, hp⟩ := (fetchTimer_excess hstep).2.2 ⟨e, he, hwant⟩
  have hexact := hacc.exact p
  rw [hw.exact] at hp
  unfold excess at hp
  omega

/-- The count of the peer is zero while its block is fetched, and negative once that is given up. -/
theorem announces_negative :
    ((Run.exec step (announcement.take 2) new).map fun f => (f.announces "peer", f.holding "peer")) =
        some (0, 1) ∧
      (Run.exec step (announcement.take 2 ++ [⟨atParent 9000, .expire⟩]) new).map
        (fun f => f.announces "peer") = some (-1) := by
  decide +kernel

theorem announcements_accounted_one : ∃ f f', Run.exec step (announcement.take 1) new = some f ∧
      f.step ⟨atParent 0, .notify ⟨2, 1, none, 0, "peer"⟩⟩ = some f' ∧ Accounted f ∧ Accounted f' := by
  obtain ⟨h, hiff⟩ := announcements_accounted (announcement.take 1) _
    ⟨atParent 0, .notify ⟨2, 1, none, 0, "peer"⟩⟩ _ rfl
    ⟨fun pick hinput => (by cases hinput), fun _ _ => trivial⟩ rfl
  exact ⟨_, _, rfl, rfl, h, hiff.2 fun pick hinput => (by cases hinput)⟩

end GoAoa.Aoa.Fetcher
