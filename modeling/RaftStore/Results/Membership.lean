import RaftStore.Results.Writes

/-!
# Leaders while the membership changes

A change of the membership takes effect where it is appended, one server at a time, so that the
majorities before and after it meet. `proposeChangeLocked` only asks that the leader's own log
holds no uncommitted change. A leader that has not committed anything in its term may not know
of the change of another leader, and the configurations that two leaders move to from a common
one need not have majorities that meet (`two_leaders`).

Where a leader has committed an entry of its term before it changes the membership, and snapshots
keep the receiver's log, every term has one leader at most (`one_leader_per_term`).
-/

namespace Cluster

open Raft Refine Consensus

variable {σ : Type} {S : Setup σ} {members : AddrMap} {w w' : World σ} {acts acts' : List Action}

/-- A leader of `w` and a leader of `w'` in the same term are one node. -/
def OneLeader (w w' : World σ) : Prop :=
  ∀ p q, w.up p = true → w'.up q = true → (w.node p).state = .leader →
    (w'.node q).state = .leader → (w.node p).currentTerm = (w'.node q).currentTerm → p = q

/-! ## Two leaders

`n1` leads term 1 and adds `n5`; nobody hears of it. `n2` wins term 2 with the other initial
members, removes `n1`, and commits the change with `n3`. Both campaign in term 3: `n1` counts
to three out of five with `n4` and `n5`, `n2` counts to two out of three with `n3`. -/

/-- The initial members of the example. -/
def fourNodes : AddrMap := .ofList [("n1", "a1"), ("n2", "a2"), ("n3", "a3"), ("n4", "a4")]

/-- Four members, and nodes that may join them. -/
def growing : Setup Unit := expandable idle fourNodes 0

/-- The schedule described above. `n1` hears of term 2 only by the heartbeat `.deliver 2`. -/
def parting : List Action :=
  [.tick "n1" true, .go "n1" 0, .go "n1" 0, .deliver 0, .deliver 1, .reply 0, .reply 1,
    .addServer "n1" "n5" "a5" "",
    .tick "n2" true, .go "n2" 0, .go "n2" 0, .go "n2" 0, .deliver 3, .deliver 4, .reply 3, .reply 4,
    .removeServer "n2" "n1", .go "n2" 1, .deliver 5, .reply 5,
    .deliver 2, .tick "n1" true, .go "n1" 7, .go "n1" 7, .deliver 6, .deliver 7, .reply 6, .reply 7,
    .crash "n2", .restart "n2", .tick "n2" true, .go "n2" 0, .deliver 8, .reply 8]

/-- Where the schedule ends: `n1` and `n2` both lead term 3. -/
def partedWorld : World Unit := after growing (World.init growing) parting

/-- **Membership changes may lead to two leaders of one term.** -/
theorem two_leaders : ∃ acts w, Run growing (JoinersWait fourNodes) (World.init growing) acts w ∧
    ¬ OneLeader w w := by
  refine ⟨parting, partedWorld, run_checked (fun _ _ => joinersWait_of_seniors)
    (by decide +kernel) (by decide +kernel), ?_⟩
  intro hone
  have heq := hone "n1" "n2" (by decide +kernel) (by decide +kernel) (by decide +kernel)
    (by decide +kernel) (by decide +kernel)
  exact absurd heq (by decide)

/-! ## One leader -/

/-- **Leaders are unique while servers are added and removed.** If nobody campaigns before it is
configured, delivered snapshots keep the receiver's log, and membership changes wait for a commit
of the leader's term, at most one node is ever leader of a term. -/
theorem one_leader_per_term (hS : Joinable S members) (hsub : Substantial S)
    (hrun : Run S (Careful members) (World.init S) acts w)
    (hrun' : Run S (Careful members) w acts' w') : OneLeader w w' := by
  -- a careful run follows the protocol, in the mode for joining nodes
  have hok : ∀ (v : World σ) (act : Action), Careful members v act →
      Admissible (joinMode S members) v act := fun _ _ => admissible_of_careful
  obtain ⟨a, a', hw, hw', hx⟩ :=
    exists_chronicles (joinMode_valid hS hsub) (hrun.mono hok) (hrun'.mono hok)
  intro p q hp hq hlp hlq hterm
  -- each of the leaders has won the term, with some quorum
  obtain ⟨Q, hwon⟩ := (hw.leader hp hlp).1
  obtain ⟨Q', hwon'⟩ := (hw'.leader hq hlq).1
  rw [hterm] at hwon
  -- and a term is won once
  exact (hw'.good.inv.ballots.won_unique (hx.won_mono hwon) hwon').1

/-! `n1` commits its first entry, adds `n5`, and commits the change with `n4` and `n5`. -/

/-- `n1` is elected, commits its first entry with `n2` and `n3`, and then adds `n5`. -/
def adding : List Action :=
  [.tick "n1" true, .go "n1" 0, .go "n1" 0, .deliver 0, .deliver 1, .reply 0, .reply 1,
    .go "n1" 1, .go "n1" 1, .deliver 2, .deliver 3, .reply 2, .reply 3,
    .addServer "n1" "n5" "a5" ""]

/-- `n5` is brought up to date, and the change is committed. -/
def added : List Action :=
  [.go "n1" 4, .deliver 4, .reply 4, .go "n1" 1, .deliver 5, .reply 5, .go "n1" 3, .deliver 6,
    .reply 6, .go "n1" 4, .deliver 7, .reply 7]

/-- `n5` is in the leader's configuration only. -/
def addingWorld : World Unit := after growing (World.init growing) adding

/-- `n5` has the configuration, and the change is committed. -/
def addedWorld : World Unit := after growing addingWorld added

theorem growing_joinable : Joinable growing fourNodes :=
  expandable_joinable idle 0 (by decide) (by decide)

theorem growing_substantial : Substantial growing := by
  intro m d hd
  cases hd
  decide

theorem adding_run : Run growing (Careful fourNodes) (World.init growing) adding addingWorld :=
  run_checked (fun _ _ => careful_of_plain) (by decide +kernel) (by decide +kernel)

theorem added_run : Run growing (Careful fourNodes) addingWorld added addedWorld :=
  run_checked (fun _ _ => careful_of_plain) (by decide +kernel) (by decide +kernel)

theorem one_leader_per_term_sample :
    ((addingWorld.node "n1").state = .leader ∧ (addedWorld.node "n1").state = .leader ∧
      (addedWorld.node "n1").commitIndex = 2 ∧ "n5" ∈ (addedWorld.node "n5").peerIDs) ∧
      OneLeader addingWorld addedWorld :=
  ⟨by decide +kernel, one_leader_per_term growing_joinable growing_substantial adding_run added_run⟩

end Cluster
