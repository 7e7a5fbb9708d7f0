import RaftStore.Node.Acknowledge

/-!
# Roles and terms

An event moves a node between roles and terms in one of four ways (`RoleStep`, `handle_role`): it
leaves both alone, a tick opens an election, a message of another node makes it a follower in the
term of the message, or the last missing vote makes a candidate the leader. So in the absence of
elections no node gets beyond the terms that messages carry, and a leader that hears of no later
term and of no other leader keeps its role (`RoleStep.term_le`, `RoleStep.leads`).

A crash takes a node back to a term that it has saved. What an event saves is never above the term
it ends in (`saved_handle`), so a bound on the terms also holds of the storage (`TermLe`).
-/

namespace Node

open Raft Cluster

variable {σ : Type} {n n' m : RaftNode σ} {ev : Event} {t : Int}

/-! ## Roles -/

/-- The term that a message of another node carries. -/
def carriedTerm : Event → Option Int
  | .requestVote req => some req.term
  | .appendEntries req => some req.term
  | .installSnapshot req => some req.term
  | .voteReply _ _ resp => some resp.term
  | .appendReply _ _ resp => some resp.term
  | .installReply _ _ resp => some resp.term
  | .confirmReply _ resp => some resp.term
  | _ => none

/-- The event is a request that only a leader sends. -/
def fromLeader : Event → Bool
  | .appendEntries _ | .installSnapshot _ => true
  | _ => false

/-- **What an event does to the role and the term of a node.** -/
inductive RoleStep (n : RaftNode σ) (ev : Event) (n' : RaftNode σ) : Prop
  | stays (hs : n'.state = n.state) (ht : n'.currentTerm = n.currentTerm)
  | campaigns (hev : ev = .tick true) (hs : n.state ≠ .leader)
      (ht : n'.currentTerm = n.currentTerm + 1)
  | follows {T : Int} (hev : carriedTerm ev = some T)
      (hT : n.currentTerm < T ∨ n.currentTerm = T ∧ fromLeader ev = true)
      (hs : n'.state = .follower) (ht : n'.currentTerm = T)
  | wins (hs : n.state = .candidate) (hs' : n'.state = .leader)
      (ht : n'.currentTerm = n.currentTerm)

/-- Whoever learns of a higher term follows in it. -/
theorem becomeFollower_role {T : Int} (h : n.currentTerm < T) (leaderID : String) :
    (n.becomeFollowerLocked T leaderID).state = .follower ∧
      (n.becomeFollowerLocked T leaderID).currentTerm = T := by
  unfold RaftNode.becomeFollowerLocked
  rw [if_pos h]
  exact ⟨rfl, rfl⟩

/-- A broadcast changes neither role nor term. -/
theorem broadcast_role (n : RaftNode σ) : n.broadcastAppendEntriesLocked.state = n.state ∧
    n.broadcastAppendEntriesLocked.currentTerm = n.currentTerm := by
  obtain ⟨r, g, heq⟩ := n.broadcast_eq
  rw [heq]
  exact ⟨rfl, rfl⟩

theorem appended_role (n : RaftNode σ) (index : Int) : (n.appended index).state = n.state ∧
    (n.appended index).currentTerm = n.currentTerm := by
  obtain ⟨hs, ht, _⟩ := settle_fields (n.persistLocked.trackSelf index)
  exact ⟨hs, ht⟩

/-- Nor does a successful reply. -/
theorem matched_role (n : RaftNode σ) (peer : String) (index : Int) :
    (n.matched peer index).state = n.state ∧
      (n.matched peer index).currentTerm = n.currentTerm := by
  obtain ⟨i, _, ha⟩ := ((n.setMatch peer index).setNext peer (index + 1)).advanceCommit_eq
  simp only [RaftNode.matched, RaftNode.replicateAgain, RaftNode.spawn,
    RaftNode.state_applyCommitted,
    RaftNode.currentTerm_applyCommitted, ha]
  exact ⟨rfl, rfl⟩

/-- Nor does tracking new peers. -/
theorem ensurePeerTracking_role (n : RaftNode σ) : n.ensurePeerTrackingLocked.state = n.state ∧
    n.ensurePeerTrackingLocked.currentTerm = n.currentTerm := by
  obtain ⟨next, mi, heq, _⟩ := n.ensurePeerTracking_eq
  rw [heq]
  exact ⟨rfl, rfl⟩

/-- Nor does a change of the membership. -/
theorem proposeChange_role (n : RaftNode σ) (ch : MembershipChange) :
    (n.proposeChangeLocked ch).1.state = n.state ∧
      (n.proposeChangeLocked ch).1.currentTerm = n.currentTerm := by
  rcases n.proposeChange_cases ch with ⟨e, heq⟩ | ⟨c, _, _, heq⟩
  · rw [heq]
    exact ⟨rfl, rfl⟩
  · rw [heq]
    obtain ⟨hs, ht⟩ := appended_role _ (n.log.lastLogIndexLocked + 1)
    refine ⟨hs.trans ?_, ht.trans ?_⟩
    · exact (ensurePeerTracking_role _).1
    · exact (ensurePeerTracking_role _).2

/-- A campaign raises the term by one, whatever becomes of it. -/
theorem term_startElection (n : RaftNode σ) (h : (!n.joining && n.isVoterLocked) = true) :
    n.startElectionLocked.currentTerm = n.currentTerm + 1 := by
  -- asking for votes does not change the term
  have hterm : ∀ (peers : List String) (req : RequestVoteRequest) (m : RaftNode σ),
      (peers.foldl (fun n' peer => n'.spawn (.sendRequestVote peer req)) m).currentTerm =
        m.currentTerm := by
    intro peers req m
    induction peers generalizing m with
    | nil => rfl
    | cons p rest ih => exact ih _
  unfold RaftNode.startElectionLocked
  rw [if_neg (by simpa using h)]
  dsimp only
  split
  · rw [(becomeLeader_fields _).2.1]
    rfl
  · rw [hterm]
    rfl

/-- A tick may open a campaign. -/
theorem role_tick (n : RaftNode σ) (due : Bool) : RoleStep n (.tick due) (n.tick due) := by
  obtain ⟨m, heq, hm⟩ := n.tick_cases due
  have hs : (n.tick due).state = m.state := by rw [heq, RaftNode.state_applyCommitted]
  have ht : (n.tick due).currentTerm = m.currentTerm := by
    rw [heq, RaftNode.currentTerm_applyCommitted]
  rcases hm with rfl | ⟨_, rfl⟩ | ⟨hld, hgo, rfl⟩
  · exact .stays hs ht
  · exact .stays (hs.trans (broadcast_role n).1) (ht.trans (broadcast_role n).2)
  · rw [Bool.and_eq_true] at hgo
    exact .campaigns (by rw [hgo.2]) hld (ht.trans (term_startElection n hgo.1))

/-- A request for a vote of a higher term makes its receiver follow. -/
theorem role_requestVote (n : RaftNode σ) (req : RequestVoteRequest) :
    RoleStep n (.requestVote req) (n.handleRequestVote req).1 := by
  rcases n.handleRequestVote_cases req with ⟨_, heq⟩ | ⟨m, hm, _, hout⟩
  · rw [heq]
    exact .stays rfl rfl
  -- the vote itself changes neither role nor term
  have hvote : ∀ k : RaftNode σ, k.state = m.state → k.currentTerm = m.currentTerm →
      RoleStep n (.requestVote req) k := by
    intro k hs ht
    rcases hm with ⟨_, rfl⟩ | ⟨hlt, rfl⟩
    · exact .stays hs ht
    · obtain ⟨hs', ht'⟩ := becomeFollower_role hlt ""
      exact .follows rfl (Or.inl hlt) (hs.trans hs') (ht.trans ht')
  rcases hout with ⟨_, _, heq⟩ | heq
  · rw [heq]
    exact hvote _ rfl rfl
  · rw [heq]
    exact hvote _ rfl rfl

/-- A leader is heard. -/
theorem role_hearLeader {T : Int} (hT : n.currentTerm ≤ T) (leaderID : String)
    (hev : carriedTerm ev = some T) (hld : fromLeader ev = true)
    (hs : n'.state = (n.hearLeader T leaderID).state)
    (ht : n'.currentTerm = (n.hearLeader T leaderID).currentTerm) : RoleStep n ev n' := by
  obtain ⟨hterm, hstate, _⟩ := n.hearLeader_fields (not_lt.mpr hT) leaderID
  refine .follows hev ?_ (hs.trans hstate) (ht.trans hterm)
  exact hT.lt_or_eq.imp_right (fun heq => ⟨heq, hld⟩)

/-- Following the leader's commits keeps the role. -/
theorem state_followCommit (n : RaftNode σ) (leaderCommit : Int) :
    (n.followCommitLocked leaderCommit).state = n.state := by
  unfold RaftNode.followCommitLocked
  split
  · exact RaftNode.state_applyCommitted _
  · rfl

/-- A request of a leader that is not stale makes its receiver follow. -/
theorem role_appendEntries (n : RaftNode σ) (req : AppendEntriesRequest) :
    RoleStep n (.appendEntries req) (n.handleAppendEntries req).1 := by
  rcases n.handleAppendEntries_cases req with ⟨_, heq⟩ | ⟨hle, _, heq⟩ | ⟨hle, _, heq⟩
  · rw [heq]
    exact .stays rfl rfl
  · rw [heq]
    exact role_hearLeader hle req.leaderID rfl rfl rfl rfl
  · rw [heq]
    refine role_hearLeader hle req.leaderID rfl rfl ?_ ?_
    · rw [state_followCommit, RaftNode.state_mergeLocked]
    · rw [RaftNode.currentTerm_followCommit, RaftNode.currentTerm_mergeLocked]

/-- So does a snapshot that is not stale. -/
theorem role_installSnapshot (n : RaftNode σ) (req : InstallSnapshotRequest) :
    RoleStep n (.installSnapshot req) (n.handleInstallSnapshot req).1 := by
  rcases n.handleInstallSnapshot_cases req with ⟨_, heq⟩ | ⟨hle, _, heq⟩ | ⟨hle, _, heq⟩
  · rw [heq]
    exact .stays rfl rfl
  · rw [heq]
    exact role_hearLeader hle req.leaderID rfl rfl rfl rfl
  · rw [heq]
    have hinst := (n.hearLeader req.term req.leaderID).installed req
    exact role_hearLeader hle req.leaderID rfl rfl hinst.state_eq hinst.currentTerm_eq

/-- A vote may be the last that a candidate needs; a higher term in the reply makes it follow. -/
theorem role_voteReply (n : RaftNode σ) (peer : String) (req : RequestVoteRequest)
    (resp : RequestVoteResponse) :
    RoleStep n (.voteReply peer req resp) (n.sendRequestVoteReply peer req resp) := by
  rcases n.sendRequestVoteReply_cases peer req resp with
    ⟨hlt, heq⟩ | heq | ⟨⟨hc, _, _⟩, ⟨_, heq⟩ | ⟨_, heq⟩⟩
  · rw [heq]
    obtain ⟨hs, ht⟩ := becomeFollower_role hlt ""
    exact .follows rfl (Or.inl hlt) hs ht
  · rw [heq]
    exact .stays rfl rfl
  · rw [heq]
    obtain ⟨hs, ht, _⟩ := becomeLeader_fields
      ({ n with votesReceived := insert peer n.votesReceived } : RaftNode σ)
    exact .wins hc hs ht
  · rw [heq]
    exact .stays rfl rfl

/-- The peer of `replicateTo` is in a later term. -/
theorem role_stepDown {T : Int} (hlt : n.currentTerm < T) (peer : String)
    (hev : carriedTerm ev = some T) :
    RoleStep n ev ((n.becomeFollowerLocked T "").replicateAgain peer false) := by
  obtain ⟨hs, ht⟩ := becomeFollower_role hlt ""
  exact .follows hev (Or.inl hlt) hs ht

/-- The reply to `AppendEntries` changes the role only with a higher term. -/
theorem role_appendReply (n : RaftNode σ) (peer : String) (req : AppendEntriesRequest)
    (resp : AppendEntriesResponse) :
    RoleStep n (.appendReply peer req resp) (n.replicateToAppended peer req resp) := by
  rcases n.replicateToAppended_cases peer req resp with
    ⟨_, heq⟩ | ⟨_, ⟨hlt, heq⟩ | ⟨_, _, heq⟩ | ⟨m, rfl | ⟨i, _, rfl⟩, heq⟩⟩
  · rw [heq]
    exact .stays rfl rfl
  · rw [heq]
    exact role_stepDown hlt peer rfl
  · rw [heq]
    exact .stays (matched_role n peer _).1 (matched_role n peer _).2
  · rw [heq]
    exact .stays rfl rfl
  · rw [heq]
    exact .stays rfl rfl

/-- So does the reply to `InstallSnapshot`. -/
theorem role_installReply (n : RaftNode σ) (peer : String) (req : InstallSnapshotRequest)
    (resp : InstallSnapshotResponse) :
    RoleStep n (.installReply peer req resp) (n.replicateToInstalled peer req resp) := by
  rcases n.replicateToInstalled_cases peer req resp with ⟨_, heq⟩ | ⟨_, ⟨hlt, heq⟩ | ⟨_, heq⟩⟩
  · rw [heq]
    exact .stays rfl rfl
  · rw [heq]
    exact role_stepDown hlt peer rfl
  · rw [heq]
    exact .stays (matched_role n peer _).1 (matched_role n peer _).2

/-- So does the reply to a confirming heartbeat. -/
theorem role_confirmReply (n : RaftNode σ) (term : Int) (resp : AppendEntriesResponse) :
    RoleStep n (.confirmReply term resp) (n.sendConfirmHeartbeatReply term resp).1 := by
  unfold RaftNode.sendConfirmHeartbeatReply
  split
  · next hlt =>
    obtain ⟨hs, ht⟩ := becomeFollower_role hlt ""
    exact .follows rfl (Or.inl hlt) hs ht
  · exact .stays rfl rfl

/-- A round of replication changes neither role nor term. -/
theorem role_replicate (n : RaftNode σ) (peer : String) :
    RoleStep n (.replicate peer) (handle n (.replicate peer)) := by
  obtain ⟨m, rfl | rfl, heq | heq⟩ := handle_replicate_cases n peer
  all_goals
    rw [heq]
    exact .stays rfl rfl

/-- A proposal changes neither role nor term. -/
theorem role_propose (n : RaftNode σ) (cmd : Bytes) :
    RoleStep n (.propose cmd) (n.propose cmd).1 := by
  rcases n.propose_cases cmd with ⟨e, heq⟩ | ⟨_, heq⟩
  · rw [heq]
    exact .stays rfl rfl
  · rw [heq]
    obtain ⟨hs, ht⟩ := appended_role _ (n.log.lastLogIndexLocked + 1)
    exact .stays hs ht

/-- **Every event is one of the four.** -/
theorem handle_role (n : RaftNode σ) (ev : Event) : RoleStep n ev (handle n ev) := by
  cases ev with
  | tick due => exact role_tick n due
  | requestVote req => exact role_requestVote n req
  | appendEntries req => exact role_appendEntries n req
  | installSnapshot req => exact role_installSnapshot n req
  | voteReply peer req resp => exact role_voteReply n peer req resp
  | appendReply peer req resp => exact role_appendReply n peer req resp
  | installReply peer req resp => exact role_installReply n peer req resp
  | confirmReply term resp => exact role_confirmReply n term resp
  | replicate peer => exact role_replicate n peer
  | propose cmd => exact role_propose n cmd
  | addServer target addr http =>
    simp only [handle, RaftNode.addServer]
    split
    · exact .stays rfl rfl
    · exact .stays (proposeChange_role n _).1 (proposeChange_role n _).2
  | removeServer target =>
    simp only [handle, RaftNode.removeServer]
    split
    · exact .stays rfl rfl
    · exact .stays (proposeChange_role n _).1 (proposeChange_role n _).2
  | readIndex =>
    simp only [handle, RaftNode.waitCurrentTermPoll]
    split
    · exact .stays rfl rfl
    split
    · exact .stays rfl rfl
    · exact .stays (broadcast_role n).1 (broadcast_role n).2
  | _ => exact .stays rfl rfl

/-- Nothing that the event brings is above `t`. -/
def UpTo (t : Int) (ev : Event) : Prop := ∀ T, carriedTerm ev = some T → T ≤ t

/-- The node does not open an election in this event. -/
def Calm (n : RaftNode σ) (ev : Event) : Prop := ev = .tick true → n.state = .leader

/-- Without an election no term goes beyond those of the messages. -/
theorem RoleStep.term_le (h : RoleStep n ev n') (hn : n.currentTerm ≤ t) (hev : UpTo t ev)
    (hcalm : Calm n ev) : n'.currentTerm ≤ t := by
  cases h with
  | stays _ ht => rw [ht]; exact hn
  | campaigns htick hs => exact absurd (hcalm htick) hs
  | follows hT _ _ ht => rw [ht]; exact hev _ hT
  | wins _ _ ht => rw [ht]; exact hn

/-- A leader is deposed by a later term or by another leader of its own. -/
theorem RoleStep.leads (h : RoleStep n ev n') (hn : n.state = .leader)
    (hev : UpTo n.currentTerm ev)
    (hother : fromLeader ev = true → carriedTerm ev ≠ some n.currentTerm) :
    n'.state = .leader ∧ n'.currentTerm = n.currentTerm := by
  cases h with
  | stays hs ht => exact ⟨hs.trans hn, ht⟩
  | campaigns _ hs => exact absurd hn hs
  -- neither a higher term nor another leader of this term
  | follows hT hlt =>
    rcases hlt with hlt | ⟨rfl, hld⟩
    · exact absurd hlt (not_lt.mpr (hev _ hT))
    · exact absurd hT (hother hld)
  | wins hs => rw [hn] at hs; cases hs

/-! ## Saved terms -/

/-- The states that a node has saved. -/
def saved (n : RaftNode σ) : List DurableState := (n.storage.map (·.saved)).getD []

/-- The term only grows, and what is saved on the way is not above where it ends. -/
structure Records (n n' : RaftNode σ) : Prop where
  term_le : n.currentTerm ≤ n'.currentTerm
  saved : ∀ d ∈ saved n', d ∈ saved n ∨ d.currentTerm ≤ n'.currentTerm

/-- Who keeps term and disk has recorded nothing. -/
theorem Records.of_eq (ht : n'.currentTerm = n.currentTerm) (hs : n'.storage = n.storage) :
    Records n n' := by
  refine ⟨ht.ge, fun d hd => Or.inl ?_⟩
  unfold Node.saved at hd ⊢
  rw [← hs]
  exact hd

/-- Records add up. -/
theorem Records.trans (h : Records n m) (h' : Records m n') : Records n n' := by
  refine ⟨h.term_le.trans h'.term_le, fun d hd => ?_⟩
  rcases h'.saved d hd with hm | hle
  · exact (h.saved d hm).imp_right (fun hle => hle.trans h'.term_le)
  · exact Or.inr hle

/-- A save records the present term. -/
theorem records_persist (n : RaftNode σ) : Records n n.persistLocked := by
  refine ⟨le_rfl, fun d hd => ?_⟩
  unfold Node.saved at hd ⊢
  cases hst : n.storage with
  | none => simp [RaftNode.persistLocked, hst] at hd
  | some st =>
    simp only [RaftNode.persistLocked, hst, Option.map_some, Option.getD_some] at hd ⊢
    rcases Storage.mem_saved_save hd with rfl | hold
    · exact Or.inr le_rfl
    · exact Or.inl hold

/-- A node is changed without a look at term and storage, and saved. -/
theorem records_change (ht : m.currentTerm = n.currentTerm) (hs : m.storage = n.storage) :
    Records n m.persistLocked :=
  (Records.of_eq ht hs).trans (records_persist m)

/-- A minor update records no lower term. -/
theorem records_minor (h : Minor n n') : Records n n' := by
  cases h with
  | volatile v => exact .of_eq rfl rfl
  -- a ballot: the term has grown, or it is the same
  | ballot term vote h =>
    have hle : n.currentTerm ≤ term := by
      rcases h with hlt | ⟨heq, _⟩
      · exact hlt.le
      · exact heq.ge
    have hset : Records n { n with currentTerm := term, votedFor := vote } :=
      ⟨hle, fun d hd => Or.inl hd⟩
    exact hset.trans (records_persist _)
  | apply e =>
    obtain ⟨x, applies, heq⟩ := n.applyNext_eq (n.lastApplied + 1) e
    rw [heq]
    exact .of_eq rfl rfl
  | compact => exact records_change rfl rfl

theorem records_quiet (h : Quiet n n') : Records n n' := by
  induction h with
  | refl => exact .of_eq rfl rfl
  | tail _ hstep ih => exact ih.trans (records_minor hstep)

/-- A section records no lower term, whatever it does to the log. -/
theorem records_section {eff : Effect} (h : Section n eff n') : Records n n' := by
  cases h with
  | none hq => exact records_quiet hq
  | append hm _ _ _ _ hn =>
    refine (records_quiet hm).trans (Records.trans ?_ (records_quiet hn))
    exact records_change rfl rfl
  | change _ hn =>
    refine Records.trans ?_ (records_quiet hn)
    exact records_change rfl rfl
  | @merge m _ req hm _ _ _ hn =>
    refine (records_quiet hm).trans (Records.trans ?_ (records_quiet hn))
    rcases m.mergeLocked_cases req with heq | heq
    · rw [heq]
      exact .of_eq rfl rfl
    · rw [heq]
      exact records_change rfl rfl
  | @install m _ req hm _ _ hn =>
    refine (records_quiet hm).trans (Records.trans ?_ (records_quiet hn))
    obtain ⟨k, ⟨_, rfl⟩ | ⟨_, rfl⟩, heq⟩ := m.installLocked_eq req
    · rw [heq]
      exact records_change rfl rfl
    · rw [heq]
      exact records_change rfl rfl

/-- **No event lowers the term or saves a lower one.** -/
theorem saved_handle (n : RaftNode σ) (ev : Event) : Records n (handle n ev) :=
  records_section (handle_section n ev)

/-- Neither the term nor what is saved is above `t`. -/
structure TermLe (t : Int) (n : RaftNode σ) : Prop where
  term : n.currentTerm ≤ t
  saved : ∀ d ∈ saved n, d.currentTerm ≤ t

/-- Terms stay below a bound that no message and no campaign exceeds. -/
theorem TermLe.handle (h : TermLe t n) (hev : UpTo t ev) (hcalm : Calm n ev) :
    TermLe t (Cluster.handle n ev) := by
  have hle := (handle_role n ev).term_le h.term hev hcalm
  refine ⟨hle, fun d hd => ?_⟩
  rcases (saved_handle n ev).saved d hd with hold | hnew
  · exact h.saved d hold
  · exact hnew.trans hle

/-- A node starts with the term it finds on its storage. -/
theorem term_recover (n : RaftNode σ) (d : DurableState) :
    (n.recover d).currentTerm = d.currentTerm ∧ (n.recover d).storage = n.storage := by
  -- loading takes the term from the disk
  have hload : (n.load d).currentTerm = d.currentTerm ∧ (n.load d).storage = n.storage := by
    unfold RaftNode.load
    dsimp only
    split
    · split <;> exact ⟨rfl, rfl⟩
    · split <;> exact ⟨rfl, rfl⟩
  have hkept : ((n.recover d).currentTerm, (n.recover d).storage) =
      ((n.load d).currentTerm, (n.load d).storage) :=
    RaftNode.recover_kept (f := fun m => (m.currentTerm, m.storage)) (fun _ _ _ _ => rfl)
      (fun _ => rfl)
      (fun _ => rfl)
  exact ⟨(congrArg Prod.fst hkept).trans hload.1, (congrArg Prod.snd hkept).trans hload.2⟩

/-- A node starts with the term that it saved last. -/
theorem termLe_boot (M : Machine σ) (cfg : Config) {storage : Option Storage} (ht : 0 ≤ t)
    (h : ∀ d ∈ (storage.map (·.saved)).getD [], d.currentTerm ≤ t) :
    TermLe t (RaftNode.boot M cfg storage) := by
  obtain ⟨hd, hs, _⟩ := boot_fields M cfg storage
  have hnew : (RaftNode.newNode cfg storage (some M.snapshotter) M.init).currentTerm ≤ t ∧
      (RaftNode.newNode cfg storage (some M.snapshotter) M.init).storage = storage := by
    unfold RaftNode.newNode
    cases storage with
    | none => exact ⟨ht, rfl⟩
    | some st =>
      dsimp only
      split
      · obtain ⟨hterm, hst⟩ := term_recover
          (RaftNode.fresh cfg (some st) (some M.snapshotter) M.init) st.load
        refine ⟨?_, hst⟩
        rw [hterm]
        unfold Storage.load
        cases hsaved : st.saved with
        | nil => exact ht
        | cons d rest => exact h d (by simp [hsaved])
      · exact ⟨ht, rfl⟩
  refine ⟨?_, ?_⟩
  · rw [show (RaftNode.boot M cfg storage).currentTerm =
      (RaftNode.boot M cfg storage).durable.currentTerm
      from rfl, hd]
    exact hnew.1
  · unfold Node.saved
    rw [hs, hnew.2]
    exact h

end Node
