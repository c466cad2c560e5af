import GoAoa.Core.NoTrace
import GoAoa.Core.PriceStages

/-!
# What block assembly includes

`commitTransactions` over the set of transactions by price and nonce. Where no transaction fails
and the gas lasts, a round depends on the nonce alone and is a `pick`; so a block has every
pending transaction if the prices of each sender are servable. The set gives up a transaction
that comes up before its turn, and there are prices for which both of its slots do.
-/

namespace GoAoa.Core

open List Option Function Bool Transaction TransactionsByPriceAndNonce

open State State.StateDB VM Semantics
open DelegateState (DelegateDB)

/-- `Sender`, with the error ignored. -/
def recovered (P : ProcessEnv) (tx : Transaction) : Address := (P.sender tx).getD 0

def byPriceAndNonce (P : ProcessEnv) : Queue TransactionsByPriceAndNonce where
  peek := peek
  shift := shift (recovered P)
  pop := pop
  size := size
  shift_lt q h := by
    obtain ⟨x, hx⟩ := Option.isSome_iff_exists.1 h
    obtain ⟨slots, hq⟩ := peek_eq_some.1 hx
    exact shift_size _ hq
  pop_lt q h := by
    obtain ⟨x, hx⟩ := Option.isSome_iff_exists.1 h
    obtain ⟨slots, hq⟩ := peek_eq_some.1 hx
    exact pop_size hq

def Work.nonce (w : Work) (a : Address) : Nat := (view w.ledger.state).getNonce a

def Work.prepared (P : ProcessEnv) (w : Work) (tx : Transaction) : Ledger :=
  { w.ledger with state := w.ledger.state.prepare (P.txHash tx) 0 w.txs.length }

def Work.isContract (w : Work) (cached : Transaction → Option Bool) (tx : Transaction) : Bool :=
  (cached tx).getD (isContractTransaction tx w.ledger.state)

def Work.start (header : Header) (state : StateDB) (delegates : DelegateDB) : Work :=
  ⟨⟨state, delegates, header.gasLimit, header.gasUsed⟩, [], [], maxContractGasLimit⟩

section

variable {P : ProcessEnv} {ctx : BlockContext} {tx : Transaction} {L L' : Ledger} {db db' : StateDB}
  {msg : Message} {a : Address} {ep : Bool}

/-! ## A transaction with another nonce -/

theorem revert_snapshot (ep : Bool) (db : StateDB) :
    ∃ db', db.snapshot.2.revertToSnapshot ep db.snapshot.1 = some db' := by
  obtain ⟨j, hj, -⟩ := Journal.Extends.rollback (.refl db.journal.snapshot.2)
  have hj : db.snapshot.2.journal.rollback db.snapshot.1 = some ([], j) := hj
  unfold revertToSnapshot
  rw [hj]
  exact ⟨_, rfl⟩

theorem revert_ensured (ep : Bool) (db : StateDB) (a : Address) :
    ∃ db', (ensured db.snapshot.2 a).revertToSnapshot ep db.snapshot.1 = some db' := by
  rcases ensured_cases db a with heq | ⟨-, heq, hx⟩ <;> rw [heq]
  · exact revert_snapshot ep db
  · obtain ⟨j, hj, -⟩ := hx.rollback
    have hj : (db.snapshot.2.createAccount a).journal.rollback db.snapshot.1 =
      some ([.createObject a], j) := hj
    unfold revertToSnapshot
    rw [hj]
    cases ep <;> exact ⟨_, rfl⟩

theorem commitTransaction_of_nonce_ne (ctx : BlockContext) {action : Action} (hc : Coherent L.state)
    (hmsg : asMessage P tx = some msg) (hact : Action.ofCode msg.action = some action)
    (hne : (view L.state).getNonce msg.sender ≠ msg.nonce) :
    ∃ L', commitTransaction P ctx tx L = some (.error (if (view L.state).getNonce msg.sender <
        msg.nonce then .nonceTooHigh else .nonceTooLow), L') ∧
      ∀ a, L'.state.shown a = L.state.shown a := by
  have hadm : admission msg L.gp L.state.snapshot.2 = .error (if (view L.state).getNonce msg.sender <
      msg.nonce then .nonceTooHigh else .nonceTooLow) := by
    have hsame : (view L.state.snapshot.2).getNonce msg.sender =
      (view L.state).getNonce msg.sender := rfl
    unfold admission
    rw [hact]
    dsimp only
    rw [hsame]
    split
    · rfl
    · rw [if_pos (by omega)]
  have hchecked : checked msg L.gp L.state.snapshot.2 = ensured L.state.snapshot.2 msg.sender := by
    unfold checked
    rw [hadm]
    by_cases hlt : (view L.state).getNonce msg.sender < msg.nonce
    · rw [if_pos hlt]
    · rw [if_neg hlt]
  have hrun : (P.semantics ctx).run
      (transitionDb (newEVM P ctx msg) P.encodeInfo msg L.gp) L.state.snapshot.2 =
      some ((L.gp, .error (if (view L.state).getNonce msg.sender < msg.nonce then .nonceTooHigh
        else .nonceTooLow)), ensured L.state.snapshot.2 msg.sender) := by
    unfold transitionDb
    rw [run_bind, run_preCheck, bind_some, hadm, hchecked]
    rfl
  obtain ⟨state, hstate⟩ := revert_ensured (P.config.isEpiphron ctx.number) L.state msg.sender
  obtain ⟨j, hdel⟩ := delegates_revert L.delegates
  refine ⟨{ L with state := state, delegates := { L.delegates with journal := j } },
    ?_, shown_revert_ensured hc hstate⟩
  unfold commitTransaction applyTransaction
  rw [hmsg]
  dsimp only
  rw [hrun]
  dsimp only [bind_some]
  rw [hstate, bind_some, hdel]
  rfl

/-! ## Removed accounts -/

/-- An account that `Finalise` deleted is not in the trie, and is deleted again every time. -/
def Gone (b : Bool) (db : StateDB) : Prop :=
  ∀ a o, db.stateObjects a = some (.deleted o) → db.trie a = none ∧ removes b o = true

variable {b : Bool}

theorem gone_new (b : Bool) (trie : Trie) : Gone b (.new trie) :=
  fun _ _ h => by cases h

theorem Gone.coherent (h : Gone b db) : Coherent db := fun a o ho => (h a o ho).1

theorem Gone.of_removesNone (h : Gone b db) (htrie : db'.trie = db.trie)
    (hnone : RemovesNone db db') : Gone b db' :=
  fun a o ho => htrie ▸ h a o (hnone a o ho)

theorem Gone.run {α : Type} {g : Growth} {p : M α} {x : α} (h : Gone b db)
    (hr : (semantics g ep).run p db = some (x, db')) : Gone b db' :=
  have hsteps := (does_all p db).steps hr
  h.of_removesNone (trie_steps hsteps) (removesNone_steps hsteps)

theorem Gone.finalise (h : Gone b db) (hf : db.finalise b = some db') : Gone b db' := by
  intro a o ho
  rcases finalise_at hf a with ⟨-, slot, slot', hslot, hslot', hfin⟩ | ⟨-, hobj, htrie⟩
  · rw [hslot'] at ho
    obtain rfl := some.inj ho
    rcases finaliseSlot_cases hfin with ⟨hrem, hnone, hsame⟩ | ⟨hkeep, rfl, -⟩
    · cases hsame
      exact ⟨hnone, hrem⟩
    · have hrem := (h a o hslot).2
      exact absurd (hrem.symm.trans hkeep) (by decide)
  · rw [htrie]
    exact h a o (hobj ▸ ho)

theorem Gone.commitTransaction {res : Except TxErr Receipt}
    (h : Gone (P.config.isAres ctx.number) L.state)
    (hcommit : commitTransaction P ctx tx L = some (res, L')) :
    Gone (P.config.isAres ctx.number) L'.state := by
  obtain ⟨⟨r, L1⟩, happ, hcommit⟩ := bind_eq_some_iff.1 hcommit
  have hL1 : Gone (P.config.isAres ctx.number) L1.state := by
    have hsnap : Gone (P.config.isAres ctx.number) L.state.snapshot.2 := h
    rcases applyTransaction_cases happ with ⟨-, -, rfl⟩ | ⟨msg, gp, t, db, -, hrun, hcase⟩
    · exact hsnap
    · have hdb := hsnap.run hrun
      rcases hcase with ⟨e, -, -, rfl⟩ | ⟨gas, failed, v, delegates, -, -, ⟨e, -, -, rfl⟩ |
        ⟨root, db', -, hf, rfl, -⟩⟩
      · exact hdb
      · exact hdb
      · exact hdb.finalise (finaliseTx_eq hf).1
  cases r with
  | ok =>
    cases hcommit
    exact hL1
  | error =>
    obtain ⟨state, hstate, hcommit⟩ := bind_eq_some_iff.1 hcommit
    obtain ⟨delegates, -, hcommit⟩ := map_eq_some_iff.1 hcommit
    cases hcommit
    exact hL1.of_removesNone (trie_revert hstate) (.revert hstate)

/-! ## Rounds in which nothing fails -/

/-- Whatever the loop meets, which is `I`: the gas and the budget for contracts last, and a
transaction whose turn it is goes through and counts up the nonce of its sender alone. -/
structure Smooth (P : ProcessEnv) (cached : Transaction → Option Bool) (ctx : BlockContext)
    (price : List Transaction) (I : TransactionsByPriceAndNonce → Work → Prop) : Prop where
  message : ∀ t ∈ price, ∃ msg action, asMessage P t = some msg ∧
    Action.ofCode msg.action = some action
  gas : ∀ {q w}, I q w → txGas ≤ w.ledger.gp
  budget : ∀ {q w t}, I q w → q.peek = some t → w.isContract cached t = true →
    t.gasLimit ≤ w.contractGasLimit
  commits : ∀ {q w t}, I q w → q.peek = some t → t.accountNonce = w.nonce (recovered P t) →
    ∃ receipt L, commitTransaction P ctx t (w.prepared P t) = some (.ok receipt, L) ∧
      ∀ u ∈ price, (view L.state).getNonce (recovered P u) =
        if recovered P u = recovered P t then w.nonce (recovered P t) + 1
        else w.nonce (recovered P u)
  next : ∀ {q w t q' w'}, I q w → q.peek = some t →
    commitNext P (byPriceAndNonce P) cached ctx t q w = some (q', w') → I q' w'

/-- The work has what has been picked. -/
structure Matches (P : ProcessEnv) (price : List Transaction) (w : Work) (p : Picked) : Prop where
  txs : w.txs = p.txs
  nonces : ∀ t ∈ price, w.nonce (recovered P t) = p.next (recovered P t)

variable {cached : Transaction → Option Bool} {price : List Transaction}
  {I : TransactionsByPriceAndNonce → Work → Prop} {q : TransactionsByPriceAndNonce} {w : Work}
  {p : Picked}

theorem recovered_of_asMessage (h : asMessage P tx = some msg) :
    recovered P tx = msg.sender ∧ msg.nonce = tx.accountNonce := by
  obtain ⟨vote, info, sender, hsender, -, rfl⟩ := asMessage_eq h
  exact ⟨by rw [recovered, hsender]; rfl, rfl⟩

/-- **A round is a pick.** -/
theorem Smooth.commitNext (hsmooth : Smooth P cached ctx price I) (hI : I q w)
    (hgone : Gone (P.config.isAres ctx.number) w.ledger.state) (hm : Matches P price w p)
    (hpeek : q.peek = some tx) (htx : tx ∈ price) :
    ∃ w', commitNext P (byPriceAndNonce P) cached ctx tx q w =
        some ((pick (recovered P) tx q p).1, w') ∧
      Matches P price w' (pick (recovered P) tx q p).2 ∧
      Gone (P.config.isAres ctx.number) w'.ledger.state := by
  obtain ⟨msg, action, hmsg, hact⟩ := hsmooth.message tx htx
  obtain ⟨hsender, hnonce⟩ := recovered_of_asMessage hmsg
  have hbudget : (w.isContract cached tx && decide (w.contractGasLimit < tx.gasLimit)) = false := by
    cases hcontract : w.isContract cached tx with
    | false => rfl
    | true => simpa using hsmooth.budget hI hpeek hcontract
  have hprep : Gone (P.config.isAres ctx.number) (w.prepared P tx).state := hgone
  unfold Core.commitNext
  dsimp only
  rw [if_neg (by rw [not_eq_true]; exact hbudget)]
  by_cases hturn : tx.accountNonce = w.nonce (recovered P tx)
  · obtain ⟨receipt, L, hok, hnonces⟩ := hsmooth.commits hI hpeek hturn
    have hpick : pick (recovered P) tx q p = (q.shift (recovered P), p.add (recovered P) tx) :=
      if_pos (hturn.trans (hm.nonces tx htx))
    unfold Work.prepared at hok
    rw [hok, hpick]
    refine ⟨_, rfl, ⟨congrArg (· ++ [tx]) hm.txs, fun t ht => ?_⟩, hprep.commitTransaction hok⟩
    refine (hnonces t ht).trans ?_
    show _ = update p.next (recovered P tx) (p.next (recovered P tx) + 1) (recovered P t)
    by_cases hsame : recovered P t = recovered P tx
    · rw [if_pos hsame, hsame, hm.nonces tx htx, update_self]
    · rw [if_neg hsame, hm.nonces t ht, update_of_ne hsame]
  · have hne : (view (w.prepared P tx).state).getNonce msg.sender ≠ msg.nonce := by
      rw [hnonce, ← hsender]
      exact fun h => hturn h.symm
    obtain ⟨L, herr, hshown⟩ := commitTransaction_of_nonce_ne ctx hprep.coherent hmsg hact hne
    have hL := hprep.commitTransaction herr
    have hkept : ∀ a, (view L.state).getNonce a = w.nonce a := by
      intro a
      show _ = (view (w.prepared P tx).state).getNonce a
      rw [view_nonce, view_nonce, hshown]
    have hread : (view (w.prepared P tx).state).getNonce msg.sender = p.next (recovered P tx) := by
      rw [← hm.nonces tx htx, ← hsender]
      rfl
    rw [hm.nonces tx htx] at hturn
    rw [hread] at herr
    unfold Work.prepared at herr
    rw [herr]
    by_cases hlow : tx.accountNonce < p.next (recovered P tx)
    · have hpick : pick (recovered P) tx q p = (q.shift (recovered P), p) := by
        unfold pick
        rw [if_neg hturn, if_pos hlow]
      rw [hpick, if_neg (by omega)]
      exact ⟨_, rfl, ⟨hm.txs, fun t ht => (hkept _).trans (hm.nonces t ht)⟩, hL⟩
    · have hpick : pick (recovered P) tx q p = (q.pop, p) := by
        unfold pick
        rw [if_neg hturn, if_neg hlow]
      rw [hpick, if_pos (by omega)]
      exact ⟨_, rfl, ⟨hm.txs, fun t ht => (hkept _).trans (hm.nonces t ht)⟩, hL⟩

/-- **The loop is a selection.** -/
theorem Smooth.commitLoop (hsmooth : Smooth P cached ctx price I) (n : Nat) (hI : I q w)
    (hgone : Gone (P.config.isAres ctx.number) w.ledger.state) (hm : Matches P price w p)
    (hheads : ∀ t ∈ q.heads, t ∈ price) (htxs : ∀ t ∈ q.txs, t ∈ price) :
    ∃ w', commitLoop P (byPriceAndNonce P) cached ctx n q w = some w' ∧
      Matches P price w' (select (recovered P) n q p) := by
  induction n generalizing q w p with
  | zero => exact ⟨w, rfl, hm⟩
  | succ n ih =>
    unfold Core.commitLoop select
    rw [if_neg (Nat.not_lt.2 (hsmooth.gas hI))]
    cases hpeek : q.peek with
    | none =>
      have hnone : (byPriceAndNonce P).peek q = none := hpeek
      rw [hnone]
      exact ⟨w, rfl, hm⟩
    | some tx =>
      have hsome : (byPriceAndNonce P).peek q = some tx := hpeek
      obtain ⟨slots, hq⟩ := peek_eq_some.1 hpeek
      have htx := hheads tx (by rw [hq]; exact mem_cons_self)
      obtain ⟨w', hnext, hm', hgone'⟩ := hsmooth.commitNext hI hgone hm hpeek htx
      obtain ⟨hheads', htxs'⟩ := pick_mem (recovered P) p hq hheads htxs
      rw [hsome]
      dsimp only
      rw [hnext, bind_some]
      exact ih (hsmooth.next hI hpeek hnext) hgone' hm' hheads' htxs'

/-- The block has every pending transaction once, those of a sender in the order of the nonces. -/
structure Includes (P : ProcessEnv) (price : List Transaction) (w : Work) : Prop where
  all : w.txs.Perm price
  order : ∀ a, (w.txs.filter fun t => recovered P t = a) =
    (newTransactionsByPriceAndNonce2 price).ofAccount (recovered P) a

/-- **Where nothing fails and the gas lasts**, a block has every pending transaction if the prices
of each sender are servable; and only then, if no sender offers the same price twice. -/
theorem includes_of_servable {header : Header} {trie : Trie}
    {delegates : DelegateDB} (hheap : Heap.Ordered Transaction.price price.length price)
    (hnonces : ∀ a, ((newTransactionsByPriceAndNonce2 price).ofAccount (recovered P) a).map
      Transaction.accountNonce = List.range' ((view (.new trie)).getNonce a)
        ((newTransactionsByPriceAndNonce2 price).ofAccount (recovered P) a).length)
    (hsmooth : Smooth P cached (Header.context header) price I)
    (hI : I (newTransactionsByPriceAndNonce2 price) (.start header (.new trie) delegates)) :
    ∃ w, commitTransactions P (byPriceAndNonce P) cached header (.new trie) delegates
        (newTransactionsByPriceAndNonce2 price) = some w ∧
      ((∀ a, Servable ((newTransactionsByPriceAndNonce2 price).ofAccount (recovered P) a)) →
        Includes P price w) ∧
      ((∀ a, (((newTransactionsByPriceAndNonce2 price).ofAccount (recovered P) a).map
          Transaction.price).Nodup) → Includes P price w →
        ∀ a, Servable ((newTransactionsByPriceAndNonce2 price).ofAccount (recovered P) a)) := by
  have hsort : (newTransactionsByPriceAndNonce2 price).txs.Perm price := perm_insertionSort _ _
  have hstart : Matches P price (.start header (.new trie) delegates)
      ⟨fun a => (view (.new trie)).getNonce a, []⟩ := ⟨rfl, fun _ _ => rfl⟩
  obtain ⟨w, hrun, hm⟩ := hsmooth.commitLoop (newTransactionsByPriceAndNonce2 price).size hI
    (gone_new _ trie) hstart (fun t ht => ht) fun t ht => hsort.mem_iff.1 ht
  refine ⟨w, hrun, fun hserve => ?_, fun hdiffer hall a => ?_⟩
  · have hall := fun a => hm.txs ▸ select_complete hheap hnonces hserve a
    refine ⟨perm_iff_count.2 fun t => ?_, hall⟩
    have hcount := congrArg (count t) (hall (recovered P t))
    rw [count_ofAccount_new price rfl, count_filter (by simp)] at hcount
    exact hcount
  · refine (servable_or_wasteful (hdiffer a)).resolve_right fun hwaste => ?_
    exact select_loses hheap hnonces hwaste (hm.txs ▸ hall.order a)

end

/-! ## Two transfers, and four -/

def offer (nonce price : Nat) : Transaction :=
  { smallTx with accountNonce := nonce, price := price, action := 0, vote := none }

def roomyHeader : Header :=
  { parentHash := 0, coinbase := 9, root := 0, txHash := 0, receiptHash := 0, bloom := 0, number := 1
    gasLimit := 1000000, gasUsed := 0, time := 10, extra := [], agentName := [], delegateRoot := 0
    shuffleHash := 0, shuffleBlockNumber := 0 }

def twoOffers : List Transaction := [offer 1 5, offer 0 3]

def afterRounds : Nat → Option (TransactionsByPriceAndNonce × Work)
  | 0 => some (newTransactionsByPriceAndNonce2 twoOffers,
      .start roomyHeader (.new (smallTrie (10 ^ 18))) smallDelegates)
  | n + 1 => (afterRounds n).bind fun r => r.1.peek.bind fun t =>
      commitNext smallEnv (byPriceAndNonce smallEnv) (fun _ => some false)
        (Header.context roomyHeader) t r.1 r.2

/-- What a round needs, as far as it can be computed. -/
def goesOn (r : TransactionsByPriceAndNonce × Work) : Bool :=
  decide (txGas ≤ r.2.ledger.gp) && r.1.peek.all fun t =>
    t.accountNonce != r.2.nonce 1 || ((commitTransaction smallEnv (Header.context roomyHeader) t
        (r.2.prepared smallEnv t)).any fun c =>
          (errorOf c.1).isNone && (view c.2.state).getNonce 1 == r.2.nonce 1 + 1)

theorem goesOn_afterRounds (n : Nat) : ∀ r ∈ afterRounds n, goesOn r = true := by
  have hend : (afterRounds 5).isNone = true := by decide +kernel
  have hfirst : ∀ n < 5, ((afterRounds n).all goesOn) = true := by decide +kernel
  intro r hr
  rcases Nat.lt_or_ge n 5 with hlt | hge
  · have hall := hfirst n hlt
    rw [mem_def.1 hr] at hall
    exact hall
  · have hnone : ∀ k, afterRounds (5 + k) = none := by
      intro k
      induction k with
      | zero => exact isNone_iff_eq_none.1 hend
      | succ k ih =>
        show (afterRounds (5 + k)).bind _ = none
        rw [ih]
        rfl
    obtain ⟨k, rfl⟩ := Nat.exists_eq_add_of_le hge
    rw [mem_def, hnone k] at hr
    cases hr

theorem smooth_twoOffers : Smooth smallEnv (fun _ => some false) (Header.context roomyHeader)
    twoOffers fun q w => ∃ n, afterRounds n = some (q, w) where
  message t ht := by
    rcases mem_cons.1 ht with rfl | ht
    · exact ⟨_, .trans, rfl, rfl⟩
    · rw [mem_singleton.1 ht]
      exact ⟨_, .trans, rfl, rfl⟩
  gas := by
    rintro q w ⟨n, hn⟩
    have hgo := goesOn_afterRounds n _ hn
    exact of_decide_eq_true (and_eq_true_iff.1 hgo).1
  budget := by
    rintro q w t - - hcontract
    cases hcontract
  commits := by
    rintro q w t ⟨n, hn⟩ hpeek hturn
    have hgo := (and_eq_true_iff.1 (goesOn_afterRounds n _ hn)).2
    rw [hpeek] at hgo
    have hturn : t.accountNonce = w.nonce 1 := hturn
    dsimp only [all_some] at hgo
    rw [hturn, bne_self_eq_false, Bool.false_or, Option.any_eq_true] at hgo
    obtain ⟨⟨res, L⟩, hcommit, hgo⟩ := hgo
    obtain ⟨hok, hnonce⟩ := and_eq_true_iff.1 hgo
    cases res with
    | error => cases hok
    | ok receipt => exact ⟨receipt, L, hcommit, fun u _ => beq_iff_eq.1 hnonce⟩
  next := by
    rintro q w t q' w' ⟨n, hn⟩ hpeek hnext
    refine ⟨n + 1, ?_⟩
    show (afterRounds n).bind _ = _
    rw [hn]
    show bind q.peek _ = _
    rw [hpeek]
    exact hnext

theorem ofAccount_twoOffers (a : Address) :
    (newTransactionsByPriceAndNonce2 twoOffers).ofAccount (recovered smallEnv) a =
      if a = 1 then [offer 0 3, offer 1 5] else [] := by
  by_cases ha : a = 1
  · subst ha
    decide
  · rw [if_neg ha]
    refine filter_eq_nil_iff.2 fun t _ => ?_
    have hone : recovered smallEnv t = 1 := rfl
    rw [hone]
    simpa using Ne.symm ha

/-- Two transactions of which the second pays more are both included. -/
theorem includes_twoOffers :
    ∃ w, commitTransactions smallEnv (byPriceAndNonce smallEnv) (fun _ => some false) roomyHeader
        (.new (smallTrie (10 ^ 18))) smallDelegates (newTransactionsByPriceAndNonce2 twoOffers) =
      some w ∧ Includes smallEnv twoOffers w := by
  have hheap : Heap.Ordered price twoOffers.length twoOffers := by
    intro j hj hlt
    obtain rfl : j = 1 := by
      have hlt : j < 2 := hlt
      omega
    decide
  have hnonces : ∀ a, ((newTransactionsByPriceAndNonce2 twoOffers).ofAccount (recovered smallEnv)
      a).map accountNonce = range' ((view (.new (smallTrie (10 ^ 18)))).getNonce a)
        ((newTransactionsByPriceAndNonce2 twoOffers).ofAccount (recovered smallEnv) a).length := by
    intro a
    rw [ofAccount_twoOffers]
    split
    · rename_i ha
      subst ha
      decide +kernel
    · rfl
  have hserve : ∀ a, Servable
      ((newTransactionsByPriceAndNonce2 twoOffers).ofAccount (recovered smallEnv) a) := by
    intro a
    rw [ofAccount_twoOffers]
    split
    · refine .inl ⟨[offer 1 5], [], rfl, fun x hx => ?_, List.Pairwise.nil, fun x hx => by cases hx⟩
      rw [mem_singleton.1 hx]
      decide
    · trivial
  obtain ⟨w, hrun, hincludes, -⟩ := includes_of_servable hheap hnonces smooth_twoOffers ⟨0, rfl⟩
  exact ⟨w, hrun, hincludes hserve⟩

/-- **The slip.** Of four transactions of one sender the last one, which pays the most, comes up
twice before its turn and is not included, though it could be executed after the others. -/
theorem not_includes_fourth :
    Heap.Ordered Transaction.price 4 [offer 3 5, offer 0 3, offer 2 0, offer 1 1] ∧
    ∃ w receipt L, commitTransactions smallEnv (byPriceAndNonce smallEnv) (fun _ => some false)
        roomyHeader (.new (smallTrie (10 ^ 18))) smallDelegates
        (newTransactionsByPriceAndNonce2 [offer 3 5, offer 0 3, offer 2 0, offer 1 1]) = some w ∧
      w.txs = [offer 0 3, offer 1 1, offer 2 0] ∧
      ¬ Includes smallEnv [offer 3 5, offer 0 3, offer 2 0, offer 1 1] w ∧
      commitTransaction smallEnv (Header.context roomyHeader) (offer 3 5) w.ledger =
        some (.ok receipt, L) := by
  refine ⟨?_, ?_⟩
  · have hall : ∀ j < 4, 0 < j → Heap.above price
        [offer 3 5, offer 0 3, offer 2 0, offer 1 1] j (Heap.parent j) = false := by decide
    exact fun j hj hlt => hall j hlt hj
  · have hrun : ((commitTransactions smallEnv (byPriceAndNonce smallEnv) (fun _ => some false)
        roomyHeader (.new (smallTrie (10 ^ 18))) smallDelegates
        (newTransactionsByPriceAndNonce2 [offer 3 5, offer 0 3, offer 2 0, offer 1 1])).bind fun w =>
          (commitTransaction smallEnv (Header.context roomyHeader) (offer 3 5) w.ledger).map
            fun c => (w.txs, errorOf c.1)) =
        some ([offer 0 3, offer 1 1, offer 2 0], none) := by decide +kernel
    obtain ⟨w, hw, hrun⟩ := bind_eq_some_iff.1 hrun
    obtain ⟨⟨res, L⟩, hcommit, htxs, hok⟩ := map_mk_eq_some.1 hrun
    cases res with
    | error => cases hok
    | ok receipt =>
      refine ⟨w, receipt, L, hw, htxs, fun hall => ?_, hcommit⟩
      have hlen := hall.all.length_eq
      rw [htxs] at hlen
      exact absurd hlen (by decide)

end GoAoa.Core
