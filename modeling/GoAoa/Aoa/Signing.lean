import GoAoa.Aoa.Handling

/-!
# What a node signs and files

Two invariants of a node. Every signature it holds from an honest delegate exists, where `K`
says which signatures exist; and the blocks it has signed, or has tasks to sign, agree at each
height as long as it takes up no second block there.
-/

namespace GoAoa.Aoa

open GoAoa.Dpos GoAoa.Core

/-- A block the node has signed, or has a task to sign. -/
def Node.Claims (n : Node) (b : Block) : Prop :=
  (∃ action, .signLocal b action ∈ n.tasks) ∨ (∃ a action, .signOne a b action ∈ n.tasks) ∨
    ∃ a, .signed a b ∈ n.log

/-- `b` differs from no block of its height that the node has taken up. -/
def Node.Fresh (C : Crypto) (n : Node) (b : Block) : Prop :=
  ∀ b', n.Claims b' → b'.numberU64 = b.numberU64 → b'.hash C = b.hash C

/-- `K a h`: a signature of `a` on `h` exists, or can be forged because `a` is Byzantine. -/
structure SignInv (C : Crypto) (K : Address → Hash → Prop) (n : Node) : Prop where
  addSign : ∀ h s, .addSign h s ∈ n.tasks → ∀ a, C.recover h s.sign = some a → K a h
  store : ∀ st ∈ n.lock.storeChan, K st.address st.blockHash
  signMap : ∀ h m, n.lock.signMap h = some m → ∀ e ∈ m.data, K e.1 h
  collected : ∀ h m, .collected h m ∈ n.log → ∀ e ∈ m.data, K e.1 h
  own : ∀ a b, .signed a b ∈ n.log → a ∈ n.wallets
  ownTask : ∀ a b action, .signOne a b action ∈ n.tasks → a ∈ n.wallets
  once : ∀ b, n.Claims b → n.Fresh C b

variable {C : Crypto} {K K' : Address → Hash → Prop} {n n' : Node} {b : Block}

namespace SignInv

theorem mono (hK : ∀ a h, K a h → K' a h) (hi : SignInv C K n) : SignInv C K' n where
  addSign h s hs a ha := hK a h (hi.addSign h s hs a ha)
  store st hst := hK _ _ (hi.store st hst)
  signMap h m hm e he := hK _ _ (hi.signMap h m hm e he)
  collected h m hm e he := hK _ _ (hi.collected h m hm e he)
  own := hi.own
  ownTask := hi.ownTask
  once := hi.once

variable {E : ChainEnv} {ev : Event}

/-- One step: a node that is handed existing signatures and fresh blocks keeps the invariant. -/
theorem step (hi : SignInv E.crypto K n) (hsigs : ∀ h signs, ev.input = .signatures h signs →
      ∀ s ∈ signs, ∀ a, E.crypto.recover h s.sign = some a → K a h)
    (hown : ∀ b, ev.input = .produce b → b.header.coinbase ∈ n.wallets)
    (hfresh : ∀ b, ev.input = .preBlock b ∨ ev.input = .produce b → n.Fresh E.crypto b)
    (hs : n.step E ev = some n')
    (hK : ∀ a b, .signed a b ∈ n'.log → K a (b.hash E.crypto)) : SignInv E.crypto K n' := by
  have h := handled_step hs
  have hcame : ∀ {k e}, Came n k e → K e.1 k := by
    rintro k e (⟨m, hm, he⟩ | ⟨st, hst, rfl, rfl⟩)
    · exact hi.signMap k m hm e he
    · exact hi.store st hst
  have hclaims : ∀ x, n'.Claims x → n.Claims x ∨ ev.input = .preBlock x ∨ ev.input = .produce x := by
    rintro x (⟨action, hx⟩ | ⟨a, action, hx⟩ | ⟨a, hx⟩)
    · exact (h.tasks _ hx).imp_left fun hx => .inl ⟨action, hx⟩
    · rcases h.tasks _ hx with hx | ⟨-, hx⟩
      · exact .inl (.inr (.inl ⟨a, action, hx⟩))
      · exact .inl (.inl ⟨action, hx⟩)
    · rcases h.log _ hx with hx | ⟨hin, -⟩ | ⟨action, hx⟩
      · exact .inl (.inr (.inr ⟨a, hx⟩))
      · exact .inr (.inr hin)
      · exact .inl (.inr (.inl ⟨a, action, hx⟩))
  refine ⟨fun k s hx a ha => ?_, fun st hst => ?_, fun k m hm e he => hcame (h.signMap k m hm e he),
    fun k m hm e he => ?_, fun a b hb => ?_, fun a b action hb => ?_, fun x hx y hy hxy => ?_⟩
  · rcases h.tasks _ hx with hx | ⟨signs, hin, hx⟩
    · exact hi.addSign k s hx a ha
    · exact hsigs k signs hin s hx a ha
  · rcases h.store st hst with hst | ⟨⟨_, -, ha, -⟩, hx | ⟨b, hb, hhash⟩⟩
    · exact hi.store st hst
    · exact hi.addSign _ _ hx _ ha
    · exact hhash ▸ hK _ b hb
  · rcases h.log _ hm with hm | hdata
    · exact hi.collected k m hm e he
    · exact hcame (hdata e he)
  · rw [h.wallets]
    rcases h.log _ hb with hb | ⟨hin, rfl⟩ | ⟨action, hb⟩
    · exact hi.own a b hb
    · exact hown b hin
    · exact hi.ownTask a b action hb
  · rw [h.wallets]
    rcases h.tasks _ hb with hb | ⟨ha, -⟩
    · exact hi.ownTask a b action hb
    · exact ha
  · rcases hclaims x hx with hx | hx
    · rcases hclaims y hy with hy | hy
      · exact hi.once x hx y hy hxy
      · exact (hfresh y hy x hx hxy.symm).symm
    · rcases hclaims y hy with hy | hy
      · exact hfresh x hx y hy hxy
      · have heq : x = y := by
          rcases hx with hx | hx <;> rcases hy with hy | hy <;> (rw [hx] at hy; cases hy) <;> rfl
        rw [heq]

theorem initial {genesis : Block} (hn : n.Initial E genesis) : SignInv E.crypto K n where
  addSign h s hs := by rw [hn.tasks] at hs; cases hs
  store st hst := by rw [hn.lock] at hst; cases hst
  signMap h m hm := by rw [hn.lock] at hm; cases hm
  collected h m hm := by rw [hn.log] at hm; cases hm
  own a b hb := by rw [hn.log] at hb; cases hb
  ownTask a b action hb := by rw [hn.tasks] at hb; cases hb
  once b hb := by simp [Node.Claims, hn.tasks, hn.log] at hb

end SignInv

/-! ## Keys and records stay -/

/-- A step adds records and keeps the keys. -/
structure Node.Grows (n n' : Node) : Prop where
  wallets : n'.wallets = n.wallets
  log : n.log ⊆ n'.log

theorem Node.Grows.step {E : ChainEnv} {ev : Event} (hs : n.step E ev = some n') : n.Grows n' :=
  ⟨(handled_step hs).wallets, (handled_step hs).grows⟩

end GoAoa.Aoa
