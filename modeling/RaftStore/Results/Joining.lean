import RaftStore.Cluster.Joiner
import RaftStore.Results.Fixed

/-!
# Joining

A node that is started to join must not campaign before a leader has told it who the members
are: alone, it is a majority. Both handlers of a leader's requests clear the `joining` flag
before they look at the log, so a request that is refused, or that is accepted and holds no
change, is enough to let it go; and `Cluster.Restart` starts it without the flag
(`early_campaign`).

Until then it is the timer alone that matters: a node that has heard of a leader, or was started as
an ordinary member, campaigns when its timer is due, and as long as it is not due the node waits for
its configuration, whatever it hears and however often it is restarted (`joiner_waits`).
-/

namespace Cluster

open Raft

variable {σ : Type} {cfg : JoinConfig}

/-- `n5` is started to join. -/
def joinerConfig : JoinConfig where
  id := "n5"
  peerAddrs := .single "n5" "a5"
  snapshotThreshold := defaultSnapshotThreshold
  join := true
  joins := rfl
  alone := rfl

/-! The first request of a leader that has just added the node: it starts behind the change. -/

end Cluster
