import Lzhlib.PoolDrain
import Lzhlib.PoolShutdown
import Lzhlib.QueueProgress

namespace Lzhlib.PoolProgress

open Interleaving Settling ThreadQueue QueueLocks QueueWakeups PushWakeups ThreadPool PoolRoles
  PoolDrain PoolShutdown QueueProgress

variable {n t u : Nat} {c d : PoolConfig} {s s' : Pool} {p p' : PoolPc}

/-- Nothing is left to do for the thread, or it waits: a worker for a
notification, a `stop` for a worker or for another `stop`. -/
def Waiting (n t : Nat) (s : Pool) : PoolPc → Prop
  | .outside | .exited => True
  | .working (.asleep _) => s.tasks.sleeping t = true
  | .stopJoin i => i < n ∧ s.joined i = false ∧ s.exited i = false
  | .stopLock => s.stopMutex ≠ none
  | _ => False

section Moves

end Moves

section Ranks

def owed : Option Task → Nat
  | none => 0
  | some _ => 1

def weight : PoolPc → Nat
  | .working p | .stopClosing p => signals p + cargo p
  | .running _ | .stopLock | .stopTest | .stopStore => 1
  | .submitCheck k _ | .submitMake k _ => 2 + owed k
  | .submitting k _ p => signals p + cargo p + owed k
  | .outside | .starting | .exited | .stopJoin _ | .stopUnlock => 0

end Ranks

section Announcements

end Announcements

section Shutdown

end Shutdown

end Lzhlib.PoolProgress
