import RaftStore.Node.Recovery

/-!
# Stopping

`Stop` ends the ticker, and the servers that call the handlers are closed before it. The goroutines
that wait for a reply go on: they take the mutex when it arrives and run the rest of their code.
`Cluster.Restart` makes a new instance on the same data directory, so several instances of one node
may share one disk.

`Instances` is such a node: the instance that runs, those that were stopped, and the disk. What a
stopped instance does changes neither its log nor the disk (`Still`) if the replies that reach it
are `Harmless`.
-/

namespace Node

open Raft Cluster

variable {σ : Type} {M : Machine σ} {n m k : RaftNode σ} {ev : Event} {peer : String}

/-- `Stop`, once it has returned. -/
def stop (n : RaftNode σ) : RaftNode σ := { n with stopped := true }

/-- What can still happen to an instance that was stopped: replies, the goroutines that wait for
their turn, and calls of clients. Its ticker and its servers are gone. -/
def Late : Event → Bool
  | .tick _ | .requestVote _ | .appendEntries _ | .installSnapshot _ => false
  | .crash | .restart | .clusterRestart _ _ => false
  | _ => true

/-! ## Harmless replies -/

/-- The peer confirms the log up to `index`, and a snapshot is due once what is committed then has
been applied. -/
def Compacts (n : RaftNode σ) (peer : String) (index : Int) : Prop :=
  let m := ((n.setMatch peer index).setNext peer (index + 1)).advanceCommitLocked
  ∃ e data, (RaftNode.applyLoop (m.commitIndex - m.lastApplied).toNat m).Due e data

/-- The reply is not of a later term, does not complete the votes of a candidate, and does not
confirm entries to a leader that takes a snapshot then. -/
def Harmless (n : RaftNode σ) : Event → Prop
  | .voteReply peer req resp => resp.term ≤ n.currentTerm ∧
    (n.state = .candidate → n.currentTerm = req.term → resp.voteGranted = true →
      (insert peer n.votesReceived).card < n.majority)
  | .appendReply peer req resp => n.state = .leader → n.currentTerm = req.term →
    resp.term ≤ n.currentTerm ∧
      (resp.success = true → ¬ Compacts n peer (req.prevLogIndex + req.entries.length))
  | .installReply peer req resp => n.state = .leader → n.currentTerm = req.term →
    resp.term ≤ n.currentTerm ∧ ¬ Compacts n peer req.lastIncludedIndex
  | .confirmReply _ resp => resp.term ≤ n.currentTerm
  | _ => True

/-- Role, log, term and vote are as they were, and nothing was saved. -/
structure Still (n m : RaftNode σ) : Prop where
  state_eq : m.state = n.state
  log_eq : m.log = n.log
  currentTerm_eq : m.currentTerm = n.currentTerm
  votedFor_eq : m.votedFor = n.votedFor
  storage_eq : m.storage = n.storage
  stopped_eq : m.stopped = n.stopped

theorem Still.refl (n : RaftNode σ) : Still n n := ⟨rfl, rfl, rfl, rfl, rfl, rfl⟩

theorem Still.trans (h : Still n m) (h' : Still m k) : Still n k :=
  ⟨h'.state_eq.trans h.state_eq, h'.log_eq.trans h.log_eq,
    h'.currentTerm_eq.trans h.currentTerm_eq, h'.votedFor_eq.trans h.votedFor_eq,
    h'.storage_eq.trans h.storage_eq, h'.stopped_eq.trans h.stopped_eq⟩

theorem still_again (n : RaftNode σ) (peer : String) (more : Bool) :
    Still n (n.replicateAgain peer more) := ⟨rfl, rfl, rfl, rfl, rfl, rfl⟩

theorem still_setNext (n : RaftNode σ) (peer : String) (i : Int) : Still n (n.setNext peer i) :=
  ⟨rfl, rfl, rfl, rfl, rfl, rfl⟩

theorem still_broadcast (n : RaftNode σ) : Still n n.broadcastAppendEntriesLocked := by
  obtain ⟨r, g, heq⟩ := n.broadcast_eq
  rw [heq]
  exact ⟨rfl, rfl, rfl, rfl, rfl, rfl⟩

/-- What is confirmed is tracked, committed and applied. -/
theorem still_confirmed (n : RaftNode σ) (peer : String) (index : Int) :
    let m := ((n.setMatch peer index).setNext peer (index + 1)).advanceCommitLocked
    Still n (RaftNode.applyLoop (m.commitIndex - m.lastApplied).toNat m) := by
  intro m
  obtain ⟨la, x, applies, hloop⟩ := m.applyLoop_eq (m.commitIndex - m.lastApplied).toNat
  obtain ⟨i, _, hadvance⟩ := ((n.setMatch peer index).setNext peer (index + 1)).advanceCommit_eq
  -- advancing moves the commit index only
  have hm : Still n m := by
    show Still n ((n.setMatch peer index).setNext peer (index + 1)).advanceCommitLocked
    rw [hadvance]
    exact ⟨rfl, rfl, rfl, rfl, rfl, rfl⟩
  rw [hloop]
  exact { hm with }

/-- A confirmation is harmless where no snapshot follows. -/
theorem still_matched {index : Int} (h : ¬ Compacts n peer index) :
    Still n (n.matched peer index) := by
  have hconfirmed := still_confirmed n peer index
  dsimp only at hconfirmed
  refine Still.trans ?_ (still_again _ peer _)
  -- no snapshot is due, by hypothesis
  rcases RaftNode.maybeCompact_cases (RaftNode.applyLoop _ _) with ⟨hkept, _⟩ | ⟨e, data, hdue, _⟩
  · show Still n (RaftNode.maybeCompactLocked _)
    rw [hkept]
    exact hconfirmed
  · exact absurd ⟨e, data, hdue⟩ h

/-- A snapshot moves the start of the log. -/
theorem log_matched_ne {index : Int} (h : Compacts n peer index) :
    (n.matched peer index).log ≠ n.log := by
  obtain ⟨e, data, hdue⟩ := h
  have hconfirmed := still_confirmed n peer index
  dsimp only at hconfirmed
  rcases RaftNode.maybeCompact_cases (RaftNode.applyLoop _ _) with
    ⟨_, hnot⟩ | ⟨e', data', hdue', hcompact⟩
  · exact absurd hdue (hnot e data)
  -- the head has moved
  · intro hlog
    have hhead : (n.matched peer index).log.head.index =
        (RaftNode.applyLoop _ _).lastApplied := congrArg (fun m => m.log.head.index) hcompact
    have hlt := hdue'.head_lt
    unfold Log.lastIncludedIndexLocked at hlt
    rw [hconfirmed.log_eq, ← hhead, hlog] at hlt
    exact lt_irrefl _ hlt

theorem still_appendReply {req : AppendEntriesRequest}
    {resp : AppendEntriesResponse} (h : Harmless n (.appendReply peer req resp)) :
    Still n (n.replicateToAppended peer req resp) := by
  rcases n.replicateToAppended_cases peer req resp with
    -- not from this term, a later term, entries taken, or refused
    ⟨_, heq⟩ | ⟨hcur, ⟨hlt, _⟩ | ⟨_, hok, heq⟩ | ⟨m, rfl | ⟨i, _, rfl⟩, heq⟩⟩
  · rw [heq]
    exact still_again n peer false
  · exact absurd hlt (not_lt.mpr (h hcur.1 hcur.2).1)
  · rw [heq]
    exact still_matched ((h hcur.1 hcur.2).2 hok)
  · rw [heq]
    exact still_again _ peer true
  · rw [heq]
    exact (still_setNext n peer i).trans (still_again _ peer true)

theorem still_installReply {req : InstallSnapshotRequest}
    {resp : InstallSnapshotResponse} (h : Harmless n (.installReply peer req resp)) :
    Still n (n.replicateToInstalled peer req resp) := by
  rcases n.replicateToInstalled_cases peer req resp with
    ⟨_, heq⟩ | ⟨hcur, ⟨hlt, _⟩ | ⟨_, heq⟩⟩
  · rw [heq]
    exact still_again n peer false
  · exact absurd hlt (not_lt.mpr (h hcur.1 hcur.2).1)
  · rw [heq]
    exact still_matched (h hcur.1 hcur.2).2

theorem still_voteReply {req : RequestVoteRequest} {resp : RequestVoteResponse}
    (h : Harmless n (.voteReply peer req resp)) :
    Still n (n.sendRequestVoteReply peer req resp) := by
  rcases n.sendRequestVoteReply_cases peer req resp with
    -- a later term, no vote, or a vote
    ⟨hlt, _⟩ | heq | ⟨⟨hcand, hterm, hyes⟩, ⟨hmany, _⟩ | ⟨_, heq⟩⟩
  · exact absurd hlt (not_lt.mpr h.1)
  · rw [heq]
    exact Still.refl n
  · exact absurd hmany (not_le.mpr (h.2 hcand hterm hyes))
  · rw [heq]
    exact ⟨rfl, rfl, rfl, rfl, rfl, rfl⟩

theorem still_replicate (n : RaftNode σ) (peer : String) :
    Still n (handle n (.replicate peer)) := by
  obtain ⟨m, hm, heq⟩ := handle_replicate_cases n peer
  have hstill : Still n m := by
    rcases hm with rfl | rfl
    · exact Still.refl _
    · exact still_setNext n peer _
  rcases heq with heq | heq
  -- the loop waits for a reply, or ends
  · rw [heq]
    exact hstill
  · rw [heq]
    exact hstill.trans (still_again m peer false)

theorem proposeChange_of_stopped (hstop : n.stopped = true) (ch : MembershipChange) :
    n.proposeChangeLocked ch = (n, .error .stopped) := if_pos hstop

/-- **A stopped instance is still** when the replies that reach it are harmless. -/
theorem Harmless.still (h : Harmless n ev) (hlate : Late ev = true) (hstop : n.stopped = true) :
    Still n (handle n ev) := by
  cases ev with
  | voteReply peer req resp => exact still_voteReply h
  | appendReply peer req resp => exact still_appendReply h
  | installReply peer req resp => exact still_installReply h
  | confirmReply term resp =>
    show Still n (n.sendConfirmHeartbeatReply term resp).1
    unfold RaftNode.sendConfirmHeartbeatReply
    -- a harmless reply is of no later term
    rw [if_neg (not_lt.mpr h)]
    exact Still.refl n
  | replicate peer => exact still_replicate n peer
  | replicateDone peer => exact ⟨rfl, rfl, rfl, rfl, rfl, rfl⟩
  | propose cmd =>
    show Still n (n.propose cmd).1
    unfold RaftNode.propose
    rw [if_pos hstop]
    exact Still.refl n
  | addServer target addr http =>
    show Still n (n.addServer target addr http).1
    unfold RaftNode.addServer
    split
    · exact Still.refl n
    · rw [proposeChange_of_stopped hstop]
      exact Still.refl n
  | removeServer target =>
    show Still n (n.removeServer target).1
    unfold RaftNode.removeServer
    split
    · exact Still.refl n
    · rw [proposeChange_of_stopped hstop]
      exact Still.refl n
  | readIndex =>
    show Still n n.waitCurrentTermPoll.1
    unfold RaftNode.waitCurrentTermPoll
    split
    · exact Still.refl n
    split
    · exact Still.refl n
    · exact still_broadcast n
  | _ => cases hlate

theorem currentTerm_lt_becomeFollower {term : Int} (h : n.currentTerm < term) (leaderID : String) :
    n.currentTerm < (n.becomeFollowerLocked term leaderID).currentTerm := by
  unfold RaftNode.becomeFollowerLocked
  rw [if_pos h]
  exact h

/-- **Every other reply disturbs it**: its role, its log or its term changes. -/
theorem harmless_of_kept (hstate : (handle n ev).state = n.state) (hlog : (handle n ev).log = n.log)
    (hterm : (handle n ev).currentTerm = n.currentTerm) : Harmless n ev := by
  -- a reply of a later term would raise the term
  have hlater {term : Int} (h : n.currentTerm < term)
      (heq : (handle n ev).currentTerm = (n.becomeFollowerLocked term "").currentTerm) : False := by
    have hlt := currentTerm_lt_becomeFollower h ""
    rw [← heq, hterm] at hlt
    exact lt_irrefl _ hlt
  cases ev with
  | voteReply peer req resp =>
    have hle : resp.term ≤ n.currentTerm := by
      by_contra hlt
      exact hlater (not_le.mp hlt) (congrArg RaftNode.currentTerm (if_pos (not_le.mp hlt)))
    refine ⟨hle, fun hcand hreq hyes => ?_⟩
    by_contra hmany
    -- the vote that was missing
    have hleads : n.sendRequestVoteReply peer req resp =
        { n with votesReceived := insert peer n.votesReceived }.becomeLeaderLocked := by
      unfold RaftNode.sendRequestVoteReply
      rw [if_neg (not_lt.mpr hle), if_neg (by simp [hcand, hreq]), if_neg (by simp [hyes])]
      exact if_pos (not_lt.mp hmany)
    have hleader : (handle n (.voteReply peer req resp)).state = .leader :=
      (congrArg RaftNode.state hleads).trans (becomeLeader_fields _).1
    rw [hstate, hcand] at hleader
    cases hleader
  | appendReply peer req resp =>
    intro hld hreq
    have hcur : ¬ (n.state ≠ .leader ∨ n.currentTerm ≠ req.term) := by simp [hld, hreq]
    have hle : resp.term ≤ n.currentTerm := by
      by_contra hlt
      have heq : n.replicateToAppended peer req resp =
          (n.becomeFollowerLocked resp.term "").replicateAgain peer false := by
        unfold RaftNode.replicateToAppended
        rw [if_neg hcur, if_pos (not_le.mp hlt)]
      exact hlater (not_le.mp hlt) (congrArg RaftNode.currentTerm heq :)
    refine ⟨hle, fun hok hcompacts => log_matched_ne hcompacts ?_⟩
    have heq : n.replicateToAppended peer req resp =
        n.matched peer (req.prevLogIndex + req.entries.length) := by
      unfold RaftNode.replicateToAppended
      rw [if_neg hcur, if_neg (not_lt.mpr hle), if_pos hok]
    rw [← heq]
    exact hlog
  | installReply peer req resp =>
    intro hld hreq
    rcases n.replicateToInstalled_cases peer req resp with
      ⟨hlate, _⟩ | ⟨_, ⟨hlt, heq⟩ | ⟨hle, heq⟩⟩
    · exact (hlate.elim (· hld) (· hreq)).elim
    · exact (hlater hlt (congrArg RaftNode.currentTerm heq :)).elim
    · refine ⟨hle, fun hcompacts => log_matched_ne hcompacts ?_⟩
      rw [← heq]
      exact hlog
  | confirmReply term resp =>
    show resp.term ≤ n.currentTerm
    by_contra hlt
    have heq : n.sendConfirmHeartbeatReply term resp =
        (n.becomeFollowerLocked resp.term "", false) :=
      if_pos (not_le.mp hlt)
    exact hlater (not_le.mp hlt) (congrArg (fun r => r.1.currentTerm) heq :)
  | _ => trivial

/-! ## Instances on one disk -/

/-- The instances of one node: the one that runs, those that were stopped, and their disk. -/
structure Instances (σ : Type) where
  running : Option (RaftNode σ)
  stopped : List (RaftNode σ)
  disk : Option Storage

/-- An event at the running instance, `Stop`, `Restart`, and what happens to a stopped instance. -/
inductive InstanceStep
  | event (ev : Event)
  | stop
  | restart (cfg : Config)
  | late (k : Nat) (ev : Event)

namespace Instances

def start (M : Machine σ) (cfg : Config) (disk : Option Storage) : Instances σ :=
  ⟨some (RaftNode.boot M cfg disk), [], disk⟩

/-- A section of an instance, which saves to the disk that all of them share. -/
def run (disk : Option Storage) (n : RaftNode σ) (ev : Event) : RaftNode σ :=
  handle { n with storage := disk } ev

def step (M : Machine σ) (s : Instances σ) : InstanceStep → Option (Instances σ)
  | .event ev => s.running.map (fun n =>
    { s with running := some (run s.disk n ev), disk := (run s.disk n ev).storage })
  | .stop =>
    s.running.map (fun n => { s with running := none, stopped := s.stopped ++ [Node.stop n] })
  | .restart cfg =>
    if s.running.isSome then none else some { s with running := some (RaftNode.boot M cfg s.disk) }
  | .late k ev =>
    if Late ev then
      (s.stopped[k]?).map (fun n =>
        { s with stopped := s.stopped.set k (run s.disk n ev), disk := (run s.disk n ev).storage })
    else none

variable {s t u : Instances σ}

theorem step_restart {cfg : Config} (h : s.step M (.restart cfg) = some t) :
    t = { s with running := some (RaftNode.boot M cfg s.disk) } := by
  simp only [step] at h
  split at h
  · cases h
  · exact (Option.some.inj h).symm

theorem step_late {k : Nat} (h : s.step M (.late k ev) = some t) : Late ev = true ∧
    ∃ n, s.stopped[k]? = some n ∧
      t = { s with
        stopped := s.stopped.set k (run s.disk n ev)
        disk := (run s.disk n ev).storage } := by
  simp only [step] at h
  split at h
  · next hlate =>
    obtain ⟨n, hk, rfl⟩ := Option.map_eq_some_iff.mp h
    exact ⟨hlate, n, hk, rfl⟩
  · cases h

/-- Every reply that reaches a stopped instance is harmless. -/
def Undisturbed (s : Instances σ) : InstanceStep → Prop
  | .late k ev => ∀ n, s.stopped[k]? = some n → Harmless { n with storage := s.disk } ev
  | _ => True

/-- The disk holds what the running instance has saved, and stopped instances know it. -/
structure Sound (s : Instances σ) : Prop where
  disk_eq : ∀ n, s.running = some n → s.disk = n.storage
  stopped : ∀ n ∈ s.stopped, n.stopped = true

theorem sound_start (cfg : Config) (disk : Option Storage) : (start M cfg disk).Sound where
  disk_eq := by
    rintro n ⟨⟩
    exact (storage_boot M cfg disk).symm
  stopped := fun n hn => absurd hn List.not_mem_nil

/-- Where everything goes that a stopped instance saves. -/
theorem Undisturbed.still (hs : s.Sound) {k : Nat} {ev : Event} {n : RaftNode σ}
    (hok : s.Undisturbed (.late k ev)) (hlate : Late ev = true) (hk : s.stopped[k]? = some n) :
    Still { n with storage := s.disk } (run s.disk n ev) := by
  have hstop : n.stopped = true := hs.stopped n (List.mem_of_getElem? hk)
  exact (hok n hk).still hlate hstop

/-- **A step of a stopped instance** saves nothing. -/
theorem Undisturbed.late (hs : s.Sound) {k : Nat} {ev : Event}
    (hok : s.Undisturbed (.late k ev)) (hstep : s.step M (.late k ev) = some t) :
    ∃ n, s.stopped[k]? = some n ∧ t.disk = s.disk ∧ t.running = s.running ∧
      t.stopped = s.stopped.set k (run s.disk n ev) ∧
      Still { n with storage := s.disk } (run s.disk n ev) := by
  obtain ⟨hlate, n, hk, rfl⟩ := step_late hstep
  have hstill := hok.still hs hlate hk
  exact ⟨n, hk, hstill.storage_eq, rfl, rfl, hstill⟩

theorem Sound.step (hs : s.Sound) {x : InstanceStep} (hok : s.Undisturbed x)
    (hstep : s.step M x = some t) : t.Sound := by
  cases x with
  | event ev =>
    obtain ⟨n, hn, rfl⟩ := Option.map_eq_some_iff.mp hstep
    refine ⟨?_, hs.stopped⟩
    rintro n' ⟨⟩
    rfl
  | stop =>
    obtain ⟨n, hn, rfl⟩ := Option.map_eq_some_iff.mp hstep
    refine ⟨fun n' h => absurd h (by simp), fun m hm => ?_⟩
    rcases List.mem_append.mp hm with hold | hnew
    · exact hs.stopped m hold
    · rw [List.mem_singleton.mp hnew]
      rfl
  | restart cfg =>
    rw [step_restart hstep]
    refine ⟨?_, hs.stopped⟩
    rintro n ⟨⟩
    exact (storage_boot M cfg s.disk).symm
  | late k ev =>
    -- only the one instance has changed, and its disk has not
    obtain ⟨n, hk, hdisk, hrun, hset, hstill⟩ := hok.late hs hstep
    refine ⟨fun m hm => ?_, fun m hm => ?_⟩
    · rw [hdisk]
      exact hs.disk_eq m (hrun.symm.trans hm)
    · rw [hset] at hm
      rcases List.mem_or_eq_of_mem_set hm with hold | rfl
      · exact hs.stopped m hold
      · exact hstill.stopped_eq.trans (hs.stopped n (List.mem_of_getElem? hk))

/-- What stopping leaves of an instance: role, log, term and vote. -/
structure Frozen (n m : RaftNode σ) : Prop where
  state_eq : m.state = n.state
  log_eq : m.log = n.log
  currentTerm_eq : m.currentTerm = n.currentTerm
  votedFor_eq : m.votedFor = n.votedFor

/-- Every stopped instance is as it was. -/
def StillThere (s t : Instances σ) : Prop :=
  ∀ (k : Nat) (n : RaftNode σ), s.stopped[k]? = some n → ∃ m, t.stopped[k]? = some m ∧ Frozen n m

theorem StillThere.refl (s : Instances σ) : StillThere s s :=
  fun _ n hn => ⟨n, hn, rfl, rfl, rfl, rfl⟩

theorem StillThere.trans (h : StillThere s t) (h' : StillThere t u) :
    StillThere s u := by
  intro k n hn
  obtain ⟨m, hm, hf⟩ := h k n hn
  obtain ⟨m', hm', hf'⟩ := h' k m hm
  exact ⟨m', hm', hf'.state_eq.trans hf.state_eq, hf'.log_eq.trans hf.log_eq,
    hf'.currentTerm_eq.trans hf.currentTerm_eq, hf'.votedFor_eq.trans hf.votedFor_eq⟩

/-- **One step.** -/
theorem Undisturbed.stillThere (hs : s.Sound) {x : InstanceStep}
    (hok : s.Undisturbed x) (hstep : s.step M x = some t) : StillThere s t := by
  cases x with
  | event ev =>
    obtain ⟨n, hn, rfl⟩ := Option.map_eq_some_iff.mp hstep
    exact StillThere.refl s
  | stop =>
    obtain ⟨n, hn, rfl⟩ := Option.map_eq_some_iff.mp hstep
    intro k m hm
    refine ⟨m, ?_, rfl, rfl, rfl, rfl⟩
    exact List.getElem?_append_left (List.getElem?_eq_some_iff.mp hm).1 ▸ hm
  | restart cfg =>
    rw [step_restart hstep]
    exact StillThere.refl s
  | late k ev =>
    obtain ⟨n, hk, _, _, hset, hstill⟩ := hok.late hs hstep
    intro j m hm
    rw [hset, List.getElem?_set]
    by_cases hj : k = j
    · subst hj
      obtain rfl : n = m := Option.some.inj (hk.symm.trans hm)
      rw [if_pos rfl, if_pos (List.getElem?_eq_some_iff.mp hk).1]
      exact ⟨_, rfl, hstill.state_eq, hstill.log_eq, hstill.currentTerm_eq, hstill.votedFor_eq⟩
    · rw [if_neg hj]
      exact ⟨m, hm, rfl, rfl, rfl, rfl⟩

end Instances

end Node
