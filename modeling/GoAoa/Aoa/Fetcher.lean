import GoAoa.Aoa.Node
import Mathlib.Data.List.AList

/-!
# The block fetcher

`aoa/fetcher/fetcher.go`: announced hashes wait, have their headers and then their bodies
fetched, and the blocks put together from both are queued for import. The expiry of requests and
each turn of the import loop are events of their own, which may happen at any time, and the queue
may give any of its blocks first; a `range` over a map follows the order of its list. The calls
the fetcher makes are recorded in `effects`. `none` is a panic.
-/

namespace GoAoa.Aoa

open List Option Run Outcome Function Node GoAoa.Dpos GoAoa.Core

/-- `announce`. Requests go to the peer it came from. -/
structure Announce where
  hash : Hash
  number : Nat
  header : Option Header
  time : Int
  origin : String

/-- `inject`. -/
structure Inject where
  origin : String
  block : Block

inductive Effect where
  | fetchHeader (peer : String) (h : Hash)
  | fetchBody (peer : String) (h : Hash)
  | dropPeer (peer : String)
  | insertChain (b : Block)
  | broadcastBlock (b : Block)
  deriving DecidableEq

/-- What the callbacks of the fetcher answer. Times are in milliseconds. -/
structure Surroundings where
  crypto : Crypto
  deriveSha : List Transaction → Hash
  now : Int
  chainHeight : Nat
  /-- `getBlock(hash) != nil`. -/
  known : Hash → Bool
  verifyHeader : Block → Outcome VerifyErr Unit
  /-- `insertChain` returns no error. -/
  inserted : Block → Bool

structure Fetcher where
  announces : String → Int
  announced : AList fun _ : Hash => List Announce
  fetching : AList fun _ : Hash => Announce
  fetched : AList fun _ : Hash => List Announce
  completing : AList fun _ : Hash => Announce
  queue : List Inject
  queues : String → Int
  queued : AList fun _ : Hash => Inject
  /-- The goroutines `insert` has started. -/
  importing : List Inject
  /-- Hashes on their way through `done`. -/
  finished : List Hash
  effects : List Effect

namespace Fetcher

def arriveTimeout : Int := 500
def gatherSlack : Int := 100
def fetchTimeout : Int := 5000
def maxUncleDist : Int := 7
def maxQueueDist : Int := 32
def hashLimit : Int := 256
def blockLimit : Int := 64

def new : Fetcher where
  announces _ := 0
  announced := ∅
  fetching := ∅
  fetched := ∅
  completing := ∅
  queue := []
  queues _ := 0
  queued := ∅
  importing := []
  finished := []
  effects := []

def perform (e : Effect) (f : Fetcher) : Fetcher := { f with effects := f.effects ++ [e] }

/-! ## Forgetting -/

def held (f : Fetcher) (h : Hash) : List Announce :=
  (f.announced.lookup h).getD [] ++ (f.fetching.lookup h).toList ++
    (f.fetched.lookup h).getD [] ++ (f.completing.lookup h).toList

def forgetHash (h : Hash) (f : Fetcher) : Fetcher :=
  { f with
    announces :=
      (f.held h).foldl (fun c a => update c a.origin (c a.origin - 1)) f.announces
    announced := f.announced.erase h
    fetching := f.fetching.erase h
    fetched := f.fetched.erase h
    completing := f.completing.erase h }

def forgetBlock (h : Hash) (f : Fetcher) : Fetcher :=
  match f.queued.lookup h with
  | none => f
  | some i =>
    { f with
      queues := update f.queues i.origin (f.queues i.origin - 1)
      queued := f.queued.erase h }

/-! ## Queueing and importing -/

/-- The block is further from the head than the fetcher cares. -/
def tooFar (s : Surroundings) (number : Nat) : Prop :=
  i64 (i64 number - i64 s.chainHeight) < -maxUncleDist ∨
    maxQueueDist < i64 (i64 number - i64 s.chainHeight)

instance (s : Surroundings) (number : Nat) : Decidable (tooFar s number) :=
  inferInstanceAs (Decidable (_ ∨ _))

section

variable (s : Surroundings)

def enqueue (peer : String) (b : Block) (f : Fetcher) : Fetcher :=
  let h := b.hash s.crypto
  let count := f.queues peer + 1
  if blockLimit < count then f.forgetHash h
  else if tooFar s b.numberU64 then f.forgetHash h
  else
    match f.queued.lookup h with
    | some _ => f
    | none =>
      { f with
        queues := update f.queues peer count
        queued := f.queued.insert h ⟨peer, b⟩
        queue := f.queue ++ [⟨peer, b⟩] }

def next (i : Nat) (f : Fetcher) : Fetcher :=
  match f.queue[i]? with
  | none => f
  | some op =>
    let number := op.block.numberU64
    let h := op.block.hash s.crypto
    if u64 (s.chainHeight + 1) < number then f
    else
      let f := { f with queue := f.queue.eraseIdx i }
      if u64 (number + maxUncleDist) < s.chainHeight ∨ s.known h then f.forgetBlock h
      else { f with importing := f.importing ++ [op] }

/-- What the goroutine of `insert` does before it reports that it is done. -/
def importBlock (op : Inject) (f : Fetcher) : Option Fetcher :=
  let imported := (f.perform (.insertChain op.block))
  let imported :=
    if s.inserted op.block then imported.perform (.broadcastBlock op.block) else imported
  if s.known op.block.header.parentHash = false then some f
  else
    (s.verifyHeader op.block).fold (fun _ => some imported)
      (fun e => if e = .errFutureBlock then some imported
        else some (f.perform (.dropPeer op.origin)))
      none

def runImport (i : Nat) (f : Fetcher) : Option Fetcher :=
  match f.importing[i]? with
  | none => some f
  | some op =>
    let started := { f with importing := f.importing.eraseIdx i }
    (started.importBlock s op).map fun f =>
      { f with finished := f.finished ++ [op.block.hash s.crypto] }

end

/-- `case hash := <-f.done`. -/
def done (i : Nat) (f : Fetcher) : Fetcher :=
  match f.finished[i]? with
  | none => f
  | some h =>
    let f := { f with finished := f.finished.eraseIdx i }
    (f.forgetHash h).forgetBlock h

/-! ## Announcements -/

section

variable (s : Surroundings)

/-- `case notification := <-f.notify`. -/
def notify (a : Announce) (f : Fetcher) : Fetcher :=
  let count := f.announces a.origin + 1
  if hashLimit < count then f
  else if 0 < a.number ∧ tooFar s a.number then f
  else if (f.fetching.lookup a.hash).isSome then f
  else if (f.completing.lookup a.hash).isSome then f
  else
    { f with
      announces := update f.announces a.origin count
      announced := f.announced.insert a.hash ((f.announced.lookup a.hash).getD [] ++ [a]) }

def expire (f : Fetcher) : Fetcher :=
  f.fetching.entries.foldl
    (fun f e => if fetchTimeout < s.now - e.2.time then f.forgetHash e.1 else f) f

variable (pick : Hash → Nat)

/-- One hash of `case <-fetchTimer.C`; `pick` is the random choice among its announcements. -/
def fetchOne (h : Hash) (as : List Announce) (f : Fetcher) : Option Fetcher :=
  match as with
  | [] => none
  | first :: _ =>
    if arriveTimeout - gatherSlack < s.now - first.time then
      let a := as.getD (pick h % as.length) first
      let f := f.forgetHash h
      if s.known h then some f
      else
        let f := { f with fetching := f.fetching.insert h a }
        some (f.perform (.fetchHeader a.origin h))
    else some f

def fetchTimer (f : Fetcher) : Option Fetcher :=
  f.announced.entries.foldlM (fun f e => f.fetchOne s pick e.1 e.2) f

/-- One hash of `case <-completeTimer.C`. -/
def completeOne (h : Hash) (as : List Announce) (f : Fetcher) : Option Fetcher :=
  match as with
  | [] => none
  | first :: _ =>
    let a := as.getD (pick h % as.length) first
    let f := f.forgetHash h
    if s.known h then some f
    else
      let f := { f with completing := f.completing.insert h a }
      some (f.perform (.fetchBody a.origin h))

def completeTimer (f : Fetcher) : Option Fetcher :=
  f.fetched.entries.foldlM (fun f e => f.completeOne s pick e.1 e.2) f

end

/-! ## Replies -/

/-- The headers that wait for a body, and the blocks that need none. -/
structure Sorted where
  incomplete : List Announce
  complete : List Block

/-- One header of `case filter := <-f.headerFilter`. Headers the fetcher did not ask for go to
the downloader. -/
def filterHeader (s : Surroundings) (peer : String) (time : Int) (r : Fetcher × Sorted)
    (header : Header) : Fetcher × Sorted :=
  let f := r.1
  let h := s.crypto.headerHash header
  match f.fetching.lookup h with
  | none => r
  | some a =>
    if a.origin = peer ∧ (f.fetched.lookup h).isNone ∧ (f.completing.lookup h).isNone ∧
        (f.queued.lookup h).isNone then
      if u64 header.number ≠ a.number then ((f.perform (.dropPeer a.origin)).forgetHash h, r.2)
      else if s.known h then (f.forgetHash h, r.2)
      else
        let a := { a with header := some header, time := time }
        let f := { f with fetching := f.fetching.insert h a }
        if header.txHash = s.deriveSha [] then
          ({ f with completing := f.completing.insert h a },
            { r.2 with complete := r.2.complete ++ [.withBody header []] })
        else (f, { r.2 with incomplete := r.2.incomplete ++ [a] })
    else r

def awaitBody (s : Surroundings) (f : Fetcher) (a : Announce) : Option Fetcher :=
  match a.header with
  | none => none
  | some header =>
    let h := s.crypto.headerHash header
    if (f.completing.lookup h).isSome then some f
    else some { f with fetched := f.fetched.insert h ((f.fetched.lookup h).getD [] ++ [a]) }

def enqueueComplete (s : Surroundings) (f : Fetcher) (b : Block) : Fetcher :=
  match f.completing.lookup (b.hash s.crypto) with
  | none => f
  | some a => f.enqueue s a.origin b

def filterHeaders (s : Surroundings) (peer : String) (time : Int) (headers : List Header)
    (f : Fetcher) : Option Fetcher :=
  let r := headers.foldl (filterHeader s peer time) (f, ⟨[], []⟩)
  (r.2.incomplete.foldlM (awaitBody s) r.1).map fun f =>
    r.2.complete.foldl (enqueueComplete s) f

/-- One body against one hash of `completing`. -/
def matchBody (s : Surroundings) (peer : String) (txs : List Transaction)
    (r : Fetcher × List Block) (h : Hash) (a : Announce) : Option (Fetcher × List Block) :=
  if (r.1.queued.lookup h).isSome then some r
  else
    match a.header with
    | none => none
    | some header =>
      if s.deriveSha txs = header.txHash ∧ a.origin = peer then
        if s.known h then some (r.1.forgetHash h, r.2)
        else some (r.1, r.2 ++ [.withBody header txs])
      else some r

/-- One body of `case filter := <-f.bodyFilter`. -/
def filterBody (s : Surroundings) (peer : String) (r : Fetcher × List Block)
    (txs : List Transaction) : Option (Fetcher × List Block) :=
  r.1.completing.entries.foldlM (fun r e => matchBody s peer txs r e.1 e.2) r

def filterBodies (s : Surroundings) (peer : String) (bodies : List (List Transaction))
    (f : Fetcher) : Option Fetcher :=
  (bodies.foldlM (filterBody s peer) (f, [])).map fun r => r.2.foldl (enqueueComplete s) r.1

/-! ## The loop -/

inductive Input where
  | notify (a : Announce)
  | inject (op : Inject)
  | done (i : Nat)
  | fetchTimer (pick : Hash → Nat)
  | completeTimer (pick : Hash → Nat)
  | headers (peer : String) (headers : List Header)
  | bodies (peer : String) (bodies : List (List Transaction))
  | expire
  | next (i : Nat)
  | runImport (i : Nat)

structure Turn where
  surroundings : Surroundings
  input : Input

def step (t : Turn) (f : Fetcher) : Option Fetcher :=
  let s := t.surroundings
  match t.input with
  | .notify a => some (f.notify s a)
  | .inject op => some (f.enqueue s op.origin op.block)
  | .done i => some (f.done i)
  | .fetchTimer pick => f.fetchTimer s pick
  | .completeTimer pick => f.completeTimer s pick
  | .headers peer headers => f.filterHeaders s peer s.now headers
  | .bodies peer bodies => f.filterBodies s peer bodies
  | .expire => some (f.expire s)
  | .next i => some (f.next s i)
  | .runImport i => f.runImport s i

/-! ## Blocks without signatures -/

/-- Every block on its way into the chain that has the hash `h` lacks the producer's signature. -/
def Bare (C : Crypto) (h : Hash) (f : Fetcher) : Prop :=
  ∀ op ∈ f.queue ++ f.importing, op.block.hash C = h → op.block.signature = []

def SameBlocks (f f' : Fetcher) : Prop := f'.queue = f.queue ∧ f'.importing = f.importing

variable {C : Crypto} {h : Hash} {s : Surroundings} {f f' f'' : Fetcher}

theorem SameBlocks.refl (f : Fetcher) : SameBlocks f f := ⟨rfl, rfl⟩

theorem SameBlocks.trans (h1 : SameBlocks f f') (h2 : SameBlocks f' f'') : SameBlocks f f'' :=
  ⟨h2.1.trans h1.1, h2.2.trans h1.2⟩

theorem Bare.of_same (hb : Bare C h f) (hs : SameBlocks f f') : Bare C h f' := by
  unfold Bare
  rw [hs.1, hs.2]
  exact hb

theorem forgetBlock_same (k : Hash) (f : Fetcher) : SameBlocks f (f.forgetBlock k) := by
  unfold forgetBlock
  split
  · exact .refl f
  · exact ⟨rfl, rfl⟩

theorem notify_same (a : Announce) (f : Fetcher) : SameBlocks f (f.notify s a) := by
  unfold notify
  dsimp only
  repeat' split
  all_goals exact ⟨rfl, rfl⟩

theorem expire_same (f : Fetcher) : SameBlocks f (f.expire s) := by
  unfold expire
  generalize f.fetching.entries = es
  induction es generalizing f with
  | nil => exact .refl f
  | cons e es ih =>
    rw [foldl_cons]
    split
    · exact SameBlocks.trans ⟨rfl, rfl⟩ (ih _)
    · exact ih f

theorem foldlM_same {α : Type} {turn : Fetcher → α → Option Fetcher}
    (hturn : ∀ f x f', turn f x = some f' → SameBlocks f f') {xs : List α}
    (hrun : xs.foldlM turn f = some f') : SameBlocks f f' := by
  induction xs generalizing f with
  | nil => cases hrun; exact .refl _
  | cons x xs ih =>
    obtain ⟨f1, h1, hrun⟩ := bind_eq_some_iff.1 hrun
    exact (hturn f x f1 h1).trans (ih hrun)

theorem fetchTimer_same {pick : Hash → Nat} (hrun : f.fetchTimer s pick = some f') :
    SameBlocks f f' := by
  refine foldlM_same (fun f e f' h => ?_) hrun
  unfold fetchOne at h
  repeat' split at h
  all_goals cases h
  all_goals exact ⟨rfl, rfl⟩

theorem completeTimer_same {pick : Hash → Nat} (hrun : f.completeTimer s pick = some f') :
    SameBlocks f f' := by
  refine foldlM_same (fun f e f' h => ?_) hrun
  unfold completeOne at h
  repeat' split at h
  all_goals cases h
  all_goals exact ⟨rfl, rfl⟩

theorem Bare.enqueue {b : Block} (hb : Bare C h f) (hbare : b.hash C = h → b.signature = [])
    (peer : String) : Bare C h (f.enqueue s peer b) := by
  unfold Fetcher.enqueue
  dsimp only
  split
  · exact hb
  · split
    · exact hb
    · split
      · exact hb
      · intro op hop
        simp only [append_assoc, mem_append, mem_singleton] at hop
        rcases hop with hop | rfl | hop
        · exact hb op (mem_append_left _ hop)
        · exact hbare
        · exact hb op (mem_append_right _ hop)

theorem Bare.enqueueComplete {bs : List Block} (hb : Bare C h f)
    (hbs : ∀ b ∈ bs, b.signature = []) : Bare C h (bs.foldl (enqueueComplete s) f) := by
  induction bs generalizing f with
  | nil => exact hb
  | cons b bs ih =>
    refine ih ?_ fun x hx => hbs x (mem_cons_of_mem b hx)
    unfold Fetcher.enqueueComplete
    split
    · exact hb
    · exact hb.enqueue (fun _ => hbs b mem_cons_self) _

/-- The blocks `filterHeaders` completes have no signatures. -/
theorem filterHeader_bare (s : Surroundings) (peer : String) (time : Int) (headers : List Header)
    (r : Fetcher × Sorted) (hr : ∀ b ∈ r.2.complete, b.signature = []) :
    SameBlocks r.1 (headers.foldl (filterHeader s peer time) r).1 ∧
      ∀ b ∈ (headers.foldl (filterHeader s peer time) r).2.complete, b.signature = [] := by
  induction headers generalizing r with
  | nil => exact ⟨.refl _, hr⟩
  | cons header headers ih =>
    have hone : SameBlocks r.1 (filterHeader s peer time r header).1 ∧
        ∀ b ∈ (filterHeader s peer time r header).2.complete, b.signature = [] := by
      unfold filterHeader
      dsimp only
      split
      · exact ⟨.refl _, hr⟩
      · split
        · split
          · exact ⟨⟨rfl, rfl⟩, hr⟩
          · split
            · exact ⟨⟨rfl, rfl⟩, hr⟩
            · split
              · refine ⟨⟨rfl, rfl⟩, fun b hb => ?_⟩
                rcases mem_append.1 hb with hb | hb
                · exact hr b hb
                · rw [mem_singleton.1 hb]; rfl
              · exact ⟨⟨rfl, rfl⟩, hr⟩
        · exact ⟨.refl _, hr⟩
    obtain ⟨hsame, hbare⟩ := ih _ hone.2
    exact ⟨hone.1.trans hsame, hbare⟩

variable {peer : String}

theorem Bare.filterHeaders {time : Int} {headers : List Header} (hb : Bare C h f)
    (hrun : f.filterHeaders s peer time headers = some f') : Bare C h f' := by
  obtain ⟨hsame, hbare⟩ := filterHeader_bare s peer time headers (f, ⟨[], []⟩) (by simp)
  obtain ⟨f1, hawait, rfl⟩ := map_eq_some_iff.1 hrun
  have hsame1 := foldlM_same (fun f a f' h => by
    unfold awaitBody at h
    dsimp only at h
    repeat' split at h
    all_goals cases h
    all_goals exact ⟨rfl, rfl⟩) hawait
  exact ((hb.of_same hsame).of_same hsame1).enqueueComplete hbare

theorem matchBody_bare {txs : List Transaction} {r r' : Fetcher × List Block}
    {k : Hash} {a : Announce} (hr : ∀ b ∈ r.2, b.signature = [])
    (hrun : matchBody s peer txs r k a = some r') :
    SameBlocks r.1 r'.1 ∧ ∀ b ∈ r'.2, b.signature = [] := by
  unfold matchBody at hrun
  split at hrun
  · cases hrun; exact ⟨.refl _, hr⟩
  · split at hrun
    · cases hrun
    · split at hrun
      · split at hrun
        · cases hrun; exact ⟨⟨rfl, rfl⟩, hr⟩
        · cases hrun
          refine ⟨.refl _, fun b hb => ?_⟩
          rcases mem_append.1 hb with hb | hb
          · exact hr b hb
          · rw [mem_singleton.1 hb]; rfl
      · cases hrun; exact ⟨.refl _, hr⟩

theorem foldlM_bare {α : Type} {turn : Fetcher × List Block → α → Option (Fetcher × List Block)}
    (hturn : ∀ r x r', (∀ b ∈ r.2, b.signature = []) → turn r x = some r' →
      SameBlocks r.1 r'.1 ∧ ∀ b ∈ r'.2, b.signature = [])
    {xs : List α} {r r' : Fetcher × List Block} (hr : ∀ b ∈ r.2, b.signature = [])
    (hrun : xs.foldlM turn r = some r') :
    SameBlocks r.1 r'.1 ∧ ∀ b ∈ r'.2, b.signature = [] := by
  induction xs generalizing r with
  | nil => cases hrun; exact ⟨.refl _, hr⟩
  | cons x xs ih =>
    obtain ⟨r1, h1, hrun⟩ := bind_eq_some_iff.1 hrun
    obtain ⟨hsame, hbare⟩ := hturn r x r1 hr h1
    obtain ⟨hsame', hbare'⟩ := ih hbare hrun
    exact ⟨hsame.trans hsame', hbare'⟩

theorem Bare.filterBodies {bodies : List (List Transaction)} (hb : Bare C h f)
    (hrun : f.filterBodies s peer bodies = some f') : Bare C h f' := by
  obtain ⟨r, hloop, rfl⟩ := map_eq_some_iff.1 hrun
  obtain ⟨hsame, hbare⟩ := foldlM_bare (fun r txs r' hr hone =>
    foldlM_bare (fun r e r' hr hone => matchBody_bare hr hone) hr hone) (by simp) hloop
  exact (hb.of_same hsame).enqueueComplete hbare

variable {i : Nat}

theorem Bare.next (hb : Bare C h f) : Bare C h (f.next s i) := by
  unfold Fetcher.next
  split
  · exact hb
  · rename_i op hop
    have herase : Bare C h { f with queue := f.queue.eraseIdx i } := fun x hx =>
      hb x (by
        rcases mem_append.1 hx with hx | hx
        · exact mem_append_left _ (mem_of_mem_eraseIdx hx)
        · exact mem_append_right _ hx)
    dsimp only
    split
    · exact hb
    · split
      · exact herase.of_same (forgetBlock_same _ _)
      · intro x hx
        simp only [mem_append, mem_singleton] at hx
        rcases hx with hx | hx | rfl
        · exact herase x (mem_append_left _ hx)
        · exact herase x (mem_append_right _ hx)
        · exact hb x (mem_append_left _ (mem_of_getElem? hop))

theorem importBlock_effects {op : Inject} (hrun : f.importBlock s op = some f') :
    ∃ es, f' = { f with effects := es } := by
  unfold importBlock at hrun
  dsimp only at hrun
  split at hrun
  · cases hrun; exact ⟨_, rfl⟩
  · cases hv : s.verifyHeader op.block with
    | ok =>
      rw [hv, fold_ok] at hrun
      cases hrun
      split <;> exact ⟨_, rfl⟩
    | err =>
      rw [hv, fold_err] at hrun
      split at hrun
      · cases hrun
        split <;> exact ⟨_, rfl⟩
      · cases hrun; exact ⟨_, rfl⟩
    | panic => rw [hv, fold_panic] at hrun; cases hrun

theorem Bare.runImport (hb : Bare C h f) (hrun : f.runImport s i = some f') : Bare C h f' := by
  unfold Fetcher.runImport at hrun
  split at hrun
  · cases hrun; exact hb
  · obtain ⟨f1, himport, rfl⟩ := map_eq_some_iff.1 hrun
    have herase : Bare C h { f with importing := f.importing.eraseIdx i } := fun x hx =>
      hb x (by
        rcases mem_append.1 hx with hx | hx
        · exact mem_append_left _ hx
        · exact mem_append_right _ (mem_of_mem_eraseIdx hx))
    obtain ⟨-, rfl⟩ := importBlock_effects himport
    exact herase.of_same ⟨rfl, rfl⟩

theorem Bare.done (hb : Bare C h f) : Bare C h (f.done i) := by
  unfold Fetcher.done
  split
  · exact hb
  · exact Bare.of_same hb (SameBlocks.trans ⟨rfl, rfl⟩ (forgetBlock_same _ _))

/-- The block with the hash `h` is not handed over as a whole. -/
def OnlyAnnounced (C : Crypto) (h : Hash) (t : Turn) : Prop :=
  ∀ op, t.input = .inject op → op.block.hash C ≠ h

/-- **Step lemma.** What the fetcher puts together from a header and a body has no signature. -/
theorem Bare.step {t : Turn} (ht : OnlyAnnounced C h t) (hb : Bare C h f)
    (hrun : f.step t = some f') : Bare C h f' := by
  obtain ⟨s, input⟩ := t
  cases input with
  | notify a => cases hrun; exact hb.of_same (notify_same a f)
  | inject op =>
    cases hrun
    exact hb.enqueue (fun hh => absurd hh (ht op rfl)) _
  | done => cases hrun; exact hb.done
  | fetchTimer => exact hb.of_same (fetchTimer_same hrun)
  | completeTimer => exact hb.of_same (completeTimer_same hrun)
  | headers => exact hb.filterHeaders hrun
  | bodies => exact hb.filterBodies hrun
  | expire => cases hrun; exact hb.of_same (expire_same f)
  | next => cases hrun; exact hb.next
  | runImport => exact hb.runImport hrun

/-- **Run lemma.** -/
theorem bare_run {ts : List Turn} (ht : ∀ t ∈ ts, OnlyAnnounced C h t)
    (hrun : exec step ts new = some f) : Bare C h f := by
  refine invariant (fun t f f' ht hb h => hb.step ht h)
    (Along.of_forall (fun t hm _ => ht t hm) new) ?_ hrun
  intro op hop
  cases hop

/-! ## The fetcher of a node -/

def verdict (E : ChainEnv) (ev : Event) (n : Node) (b : Block) : Outcome VerifyErr Unit :=
  (verifyHeaderAndSign E.crypto (n.chain.reader E) ev.now b n.round E.blockInterval).fold
    (fun _ => .ok ())
    (fun _ => verifyHeaderAndSign E.crypto (n.chain.reader E) ev.now b ev.reshuffled E.blockInterval)
    .panic

theorem validator_verdict (E : ChainEnv) (ev : Event) (n : Node) (b : Block) :
    ∃ n', n.validator E ev b = (n', verdict E ev n b) := by
  unfold validator verdict
  cases verifyHeaderAndSign E.crypto (n.chain.reader E) ev.now b n.round E.blockInterval with
  | ok => exact ⟨n, by rw [fold_ok, fold_ok]⟩
  | err => exact ⟨_, by rw [fold_err, fold_err]⟩
  | panic => exact ⟨n, by rw [fold_panic, fold_panic]⟩

/-- The callbacks `NewProtocolManager` gives the fetcher. -/
def surroundings (E : ChainEnv) (ev : Event) (n : Node) (now : Int) : Surroundings where
  crypto := E.crypto
  deriveSha := E.deriveSha
  now := now
  chainHeight := n.height
  known h := (n.chain.blocks h).isSome
  verifyHeader := verdict E ev n
  inserted b := n.fastSync || (n.chain.insertChain E ev.now ev.coin [b]).any fun r => r.2.isNone

/-- The header checks do not refuse a block of a slot that has begun as a future one. -/
theorem verifyHeader_ne_future {now : Int} {header parent : Header} {e : VerifyErr}
    (htime : (header.time : Int) ≤ now) (h : verifyHeader now header parent = .error e) :
    e ≠ .errFutureBlock := by
  rintro rfl
  unfold verifyHeader at h
  rw [if_neg (c := now + allowedFutureBlockTime < header.time)
    (by unfold allowedFutureBlockTime; omega)] at h
  dsimp only at h
  repeat' split at h
  all_goals cases h

/-- Without a signature no check of the producer passes. -/
theorem verifyHeaderAndSign_unsigned (chain : ChainReader) (now : Int) {b : Block}
    (list : ShuffleList) (interval : Int) (hsign : b.signature = []) :
    ∃ e, verifyHeaderAndSign C chain now b list interval = .err e ∧
      (b.header.time < 2 ^ 63 → e ≠ .errFutureBlock) := by
  unfold verifyHeaderAndSign
  dsimp only
  split
  · exact ⟨_, rfl, fun _ => by simp⟩
  · rename_i hslot
    split
    · exact ⟨_, rfl, fun _ => by simp⟩
    · rename_i parent hparent
      cases hv : verifyHeader now b.header parent with
      | error e =>
        refine ⟨e, rfl, fun htime => verifyHeader_ne_future ?_ hv⟩
        rw [u64_of_lt (by omega), i64_of_lt htime] at hslot
        omega
      | ok =>
        refine ⟨.missSignature b.numberU64, ?_, fun _ => by simp⟩
        simp only [Outcome.ofExcept, Outcome.bind, verifyProducer, if_pos hsign]

theorem verdict_unsigned (E : ChainEnv) (ev : Event) (n : Node) {b : Block}
    (hsign : b.signature = []) : ∃ e, verdict E ev n b = .err e ∧
      (b.header.time < 2 ^ 63 → e ≠ .errFutureBlock) := by
  obtain ⟨e, he, -⟩ := verifyHeaderAndSign_unsigned (n.chain.reader E) ev.now
    n.round E.blockInterval hsign
  unfold verdict
  rw [he, fold_err]
  exact verifyHeaderAndSign_unsigned _ _ _ _ hsign

theorem runImport_refused {op : Inject} {e : VerifyErr} (hop : f.importing[i]? = some op)
    (hparent : s.known op.block.header.parentHash = true)
    (hv : s.verifyHeader op.block = .err e) (he : e ≠ .errFutureBlock) :
    ∃ f', f.runImport s i = some f' ∧ f'.effects = f.effects ++ [.dropPeer op.origin] := by
  have himport : ∀ g : Fetcher, g.importBlock s op = some (g.perform (.dropPeer op.origin)) := by
    intro g
    unfold importBlock
    rw [if_neg (by simp [hparent]), hv, fold_err, if_neg he]
  unfold runImport
  rw [hop]
  dsimp only
  rw [himport]
  exact ⟨_, rfl, rfl⟩

/-- **Announced blocks are refused.** In every run of the fetcher in which the block with the hash
`h` is not handed over as a whole, a block with that hash that comes to import at a node that has
its parent is refused by the validator, and the peer that served it is dropped. -/
theorem announced_refused (E : ChainEnv) (ev : Event) (n : Node) (now : Int) (h : Hash)
    (ts : List Turn) (f : Fetcher) (i : Nat) (op : Inject)
    (honly : ∀ t ∈ ts, OnlyAnnounced E.crypto h t) (hrun : Run.exec step ts new = some f)
    (hop : f.importing[i]? = some op) (hhash : op.block.hash E.crypto = h)
    (htime : op.block.header.time < 2 ^ 63)
    (hparent : (n.chain.blocks op.block.header.parentHash).isSome) :
    verdict E ev n op.block ≠ .ok () ∧
      ∃ f', f.step ⟨surroundings E ev n now, .runImport i⟩ = some f' ∧
        f'.effects = f.effects ++ [.dropPeer op.origin] := by
  have hsign := bare_run honly hrun op (mem_append_right _ (mem_of_getElem? hop)) hhash
  obtain ⟨e, hv, he⟩ := verdict_unsigned E ev n hsign
  refine ⟨by rw [hv]; simp, ?_⟩
  exact runImport_refused hop hparent hv (he htime)

/-! ### A block on its way -/

def plainTx : Transaction :=
  { accountNonce := 0, price := 0, gasLimit := 0, recipient := none, amount := 0, payload := []
    action := 0, vote := none, nickname := [], asset := none, assetInfo := none, subAddress := ""
    abi := [], v := 0, r := 0, s := 0 }

/-- The block of a slot with one transaction, as its producer has signed it. -/
def servedBlock : Block :=
  let header := { slotHeader 1 [0] with txHash := 1 }
  { header := header, transactions := [plainTx]
    signature := extraCrypto.sign 1 (extraCrypto.headerHash header), rlpEncodeSigns := none }

def bodyEnv : ChainEnv :=
  { smallEnv with deriveSha := fun txs => BitVec.ofNat 256 txs.length }

def atParent (now : Int) : Surroundings :=
  surroundings bodyEnv (smallEvent .futureBlocks) (smallNode []) now

/-- The block is announced, its header and body are fetched, and it comes to import. -/
def announcement : List Turn :=
  [⟨atParent 0, .notify ⟨servedBlock.hash extraCrypto, 1, none, 0, "peer"⟩⟩,
   ⟨atParent 500, .fetchTimer fun _ => 0⟩,
   ⟨atParent 510, .headers "peer" [servedBlock.header]⟩,
   ⟨atParent 610, .completeTimer fun _ => 0⟩,
   ⟨atParent 620, .bodies "peer" [servedBlock.transactions]⟩,
   ⟨atParent 620, .next 0⟩]

/-- The signed block passes the validator; the one the fetcher assembles costs the peer its
connection. -/
theorem announced_dropped : (atParent 620).verifyHeader servedBlock = .ok () ∧
      (Run.exec step (announcement ++ [⟨atParent 620, .runImport 0⟩]) new).map (·.effects) =
        some [.fetchHeader "peer" 1, .fetchBody "peer" 1, .dropPeer "peer"] := by
  decide +kernel

theorem announced_refused_served : ∃ f op f', Run.exec step announcement new = some f ∧
    f.importing[0]? = some op ∧ op.block.hash bodyEnv.crypto = 1 ∧
    verdict bodyEnv (Node.smallEvent .futureBlocks) (Node.smallNode []) op.block ≠ .ok () ∧
    f.step ⟨atParent 620, .runImport 0⟩ = some f' ∧
    f'.effects = f.effects ++ [.dropPeer op.origin] := by
  have hrun : (exec step announcement new).map
      (fun f => f.importing.map fun op => (op.origin, op.block)) =
      some [("peer", .withBody servedBlock.header servedBlock.transactions)] := by decide +kernel
  obtain ⟨f, hf, himporting⟩ := map_eq_some_iff.1 hrun
  obtain ⟨op, himp, hop⟩ : ∃ op, f.importing = [op] ∧
      (op.origin, op.block) = ("peer", .withBody servedBlock.header servedBlock.transactions) := by
    simpa [map_eq_cons_iff] using himporting
  have hblock := (Prod.mk.inj hop).2
  have hget : f.importing[0]? = some op := by rw [himp]; rfl
  have honly : ∀ t ∈ announcement, OnlyAnnounced bodyEnv.crypto 1 t := by
    intro t ht op hinput
    simp only [announcement, mem_cons, not_mem_nil, or_false] at ht
    rcases ht with rfl | rfl | rfl | rfl | rfl | rfl <;> cases hinput
  obtain ⟨hv, f', hstep, heffects⟩ := announced_refused bodyEnv (smallEvent .futureBlocks)
    (smallNode []) 620 1 announcement f 0 op honly hf hget
    (by rw [hblock]; decide +kernel) (by rw [hblock]; decide +kernel)
    (by rw [hblock]; decide +kernel)
  exact ⟨f, op, f', hf, hget, by rw [hblock]; decide +kernel, hv, hstep, heffects⟩

end Fetcher

end GoAoa.Aoa
