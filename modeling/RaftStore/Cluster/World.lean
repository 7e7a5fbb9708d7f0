import RaftStore.Raft.Boot
import RaftStore.Kv.Http

/-!
# The cluster

All nodes, the RPCs between them, and the client calls in progress. A step of the cluster
runs one critical section of one node, or lets the network or a process fail:

* an RPC is a `Call`. Its request reaches the receiver at any later time or never
  (`deliver`), its reply reaches the caller at any later time or never (`reply`), and the
  caller may give up waiting at any time (`giveUp`), before or after the request arrives;
* a goroutine that is ready to run runs at any later time (`go`, `beat`);
* a process may crash at any time (`crash`), also in the middle of a critical section,
  between two writes to its storage (`crashDuring`), and start again from its storage
  (`restart`). Whatever it had in memory is lost, and so are the calls it waited for. A crash
  after the last write of a section looks like one right after the section;
* client calls (`kv.Server.Get`, and a `PUT` request with its forwarding) move from one
  critical section to the next; what they wait for may happen in between or not at all.

`step` is a function: `none` means that the action is not possible.
-/

namespace Cluster

open Raft

variable {σ : Type}

/-! ## Calls between nodes -/

/-- An RPC with its request and, once the receiver has handled it, its reply. A heartbeat
sent for a `Get` names it in `read`. -/
inductive Rpc
  | requestVote (req : RequestVoteRequest) (resp : Option RequestVoteResponse)
  | appendEntries (req : AppendEntriesRequest) (resp : Option AppendEntriesResponse)
      (read : Option Nat)
  | installSnapshot (req : InstallSnapshotRequest) (resp : Option InstallSnapshotResponse)

/-- `pending`: the request has not reached `dst`. `waiting`: the goroutine at `src` still
waits for the reply. -/
structure Call where
  src : String
  dst : String
  rpc : Rpc
  pending : Bool := true
  waiting : Bool := true

/-! ## Client calls -/

/-- Where a `kv.Server.Get` is: the phases of `ReadIndex`, then the read of the store. -/
inductive GetPhase (σ : Type)
  | waitCurrentTerm
  | capture
  | confirm (readIndex term : Int)
  | collect (readIndex : Int) (acks pending majority : Nat)
  | waitApplied (readIndex : Int)
  | checkState
  | read
  | done (store : σ)
  | failed (e : Err)
  | lost
  deriving DecidableEq

/-- A `kv.Server.Get` at `node`. `beats` are the goroutines `sendConfirmHeartbeat` that have
not run yet, with their peer and term, and `results` is the channel of `confirmLeadership`.
`done` carries the store the value is looked up in, so one call stands for every key. -/
structure GetOp (σ : Type) where
  node : String
  phase : GetPhase σ := .waitCurrentTerm
  beats : List (String × Int) := []
  results : List Bool := []

def GetPhase.running : GetPhase σ → Bool
  | .done _ | .failed _ | .lost => false
  | _ => true

/-- The phases in which `ReadIndex` looks at its deadline or at `stopCh`. -/
def GetPhase.waits : GetPhase σ → Bool
  | .waitCurrentTerm | .confirm _ _ | .collect _ _ _ _ | .waitApplied _ => true
  | _ => false

/-- What a `PUT` request is answered with when it fails. -/
inductive PutErr
  | emptyKey
  | notLeader (leaderID leaderAddr leaderHTTP : String)
  | raft (e : Err)
  deriving DecidableEq

/-- Where a `PUT` request is: `Server.Put`, the lookup of the leader by `notLeader`, and
`forwardToLeader`. -/
inductive PutPhase
  | start
  | propose
  | waitApplied (index : Int)
  | notLeader
  | leaderAddr (leaderID : String)
  | redirect (leaderID leaderAddr : String)
  | ok
  | failed (e : PutErr)
  | forwarded
  | lost
  deriving DecidableEq

def PutPhase.running : PutPhase → Bool
  | .ok | .failed _ | .forwarded | .lost => false
  | _ => true

/-- A `PUT` request at `node`. `origin` is the request it was forwarded for, if any;
`proposed` is what `Propose` returned: the index and the term of the entry. -/
structure PutOp where
  node : String
  key : Bytes
  value : Bytes
  origin : Option Nat := none
  proposed : Option (Int × Int) := none
  phase : PutPhase := .start

/-! ## The state and its actions -/

/-- What a cluster is made of: the state machine, the configuration each node is started
with, the encoding of a put as a command, which node serves an HTTP address, and the status with
which an HTTP server redirects. -/
structure Setup (σ : Type) where
  machine : Machine σ
  config : String → Config
  encode : Bytes → Bytes → Bytes
  httpHost : String → Option String
  httpRedirect : Http.Redirect := .temporaryRedirect

structure World (σ : Type) where
  node : String → RaftNode σ
  up : String → Bool
  calls : List Call
  gets : List (GetOp σ)
  puts : List PutOp

/-- Every node freshly started on empty storage. -/
def World.init (S : Setup σ) : World σ where
  node := fun id => RaftNode.boot S.machine (S.config id) (some {})
  up := fun _ => true
  calls := []
  gets := []
  puts := []

inductive Action
  | tick (id : String) (due : Bool)
  | go (id : String) (k : Nat)
  | deliver (k : Nat)
  | reply (k : Nat)
  | giveUp (k : Nat)
  | propose (id : String) (cmd : Bytes)
  | addServer (id target addr http : String)
  | removeServer (id target : String)
  | startGet (id : String)
  | stepGet (k : Nat)
  | beat (k i : Nat)
  | abortGet (k : Nat) (e : Err)
  | startPut (id : String) (key body : Bytes)
  | stepPut (k : Nat)
  | abortPut (k : Nat) (e : Err)
  | stop (id : String)
  | crash (id : String)
  | crashDuring (a : Action) (saves : Nat)
  | restart (id : String)

namespace World

def setNode (w : World σ) (id : String) (n : RaftNode σ) : World σ :=
  { w with node := Function.update w.node id n }

def setCall (w : World σ) (k : Nat) (c : Call) : World σ :=
  { w with calls := w.calls.set k c }

def addCall (w : World σ) (c : Call) : World σ :=
  { w with calls := w.calls ++ [c] }

def setGet (w : World σ) (k : Nat) (g : GetOp σ) : World σ :=
  { w with gets := w.gets.set k g }

def setPut (w : World σ) (k : Nat) (p : PutOp) : World σ :=
  { w with puts := w.puts.set k p }

/-- `results <- b`, if the call is still there. -/
def result (w : World σ) (read : Nat) (b : Bool) : World σ :=
  match w.gets[read]? with
  | none => w
  | some g => w.setGet read { g with results := g.results ++ [b] }

/-! ## Goroutines and RPCs -/

/-- Run a goroutine of `id` up to its next RPC. -/
def runGoroutine (w : World σ) (id : String) : Goroutine → World σ
  | .replicateTo peer =>
    let r := (w.node id).replicateToHead peer
    match r.2 with
    | none => w.setNode id (r.1.replicateAgain peer false)
    | some (.append req) =>
      (w.setNode id r.1).addCall { src := id, dst := peer, rpc := .appendEntries req none none }
    | some (.install req) =>
      (w.setNode id r.1).addCall { src := id, dst := peer, rpc := .installSnapshot req none }
  | .replicateToDone peer => w.setNode id ((w.node id).replicateToDone peer)
  | .sendRequestVote peer req =>
    if (w.node id).transport.isNone then w
    else w.addCall { src := id, dst := peer, rpc := .requestVote req none }

/-- Run a `sendConfirmHeartbeat` of `Get` number `k` up to its RPC. -/
def runBeat (w : World σ) (k : Nat) (g : GetOp σ) (i : Nat) : Option (World σ) :=
  g.beats[i]?.map (fun b =>
    let w := w.setGet k { g with beats := g.beats.eraseIdx i }
    match (w.node g.node).sendConfirmHeartbeatHead b.2 with
    | none => w.result k false
    | some req =>
      w.addCall { src := g.node, dst := b.1, rpc := .appendEntries req none (some k) })

/-- The receiver handles the request. -/
def deliverCall (w : World σ) (k : Nat) (c : Call) : World σ :=
  let n := w.node c.dst
  match c.rpc with
  | .requestVote req _ =>
    let r := n.handleRequestVote req
    (w.setNode c.dst r.1).setCall k
      { c with pending := false, rpc := .requestVote req (some r.2) }
  | .appendEntries req _ read =>
    let r := n.handleAppendEntries req
    (w.setNode c.dst r.1).setCall k
      { c with pending := false, rpc := .appendEntries req (some r.2) read }
  | .installSnapshot req _ =>
    let r := n.handleInstallSnapshot req
    (w.setNode c.dst r.1).setCall k
      { c with pending := false, rpc := .installSnapshot req (some r.2) }

/-- The caller gets the reply. -/
def replyCall (w : World σ) (k : Nat) (c : Call) : Option (World σ) :=
  let n := w.node c.src
  let w := w.setCall k { c with waiting := false }
  match c.rpc with
  | .requestVote req (some resp) =>
    some (w.setNode c.src (n.sendRequestVoteReply c.dst req resp))
  | .appendEntries req (some resp) none =>
    some (w.setNode c.src (n.replicateToAppended c.dst req resp))
  | .appendEntries req (some resp) (some read) =>
    let r := n.sendConfirmHeartbeatReply req.term resp
    some ((w.setNode c.src r.1).result read r.2)
  | .installSnapshot req (some resp) =>
    some (w.setNode c.src (n.replicateToInstalled c.dst req resp))
  | _ => none

/-- The caller gets an error instead of a reply. -/
def giveUpCall (w : World σ) (k : Nat) (c : Call) : World σ :=
  let n := w.node c.src
  let w := w.setCall k { c with waiting := false }
  match c.rpc with
  | .requestVote _ _ => w
  | .appendEntries _ _ (some read) => w.result read false
  | .appendEntries _ _ none | .installSnapshot _ _ =>
    w.setNode c.src (n.replicateAgain c.dst false)

/-! ## Client calls -/

/-- One critical section of a `Get`, or one receive from its channel. -/
def runGet (w : World σ) (k : Nat) (g : GetOp σ) : Option (World σ) :=
  let n := w.node g.node
  let goto (p : GetPhase σ) : Option (World σ) := some (w.setGet k { g with phase := p })
  match g.phase with
  | .waitCurrentTerm =>
    let r := n.waitCurrentTermPoll
    let w := w.setNode g.node r.1
    match r.2 with
    | .done => some (w.setGet k { g with phase := .capture })
    | .failed e => some (w.setGet k { g with phase := .failed e })
    | .again => some w
  | .capture =>
    match n.captureReadIndex with
    | .error e => goto (.failed e)
    | .ok (readIndex, term) => goto (.confirm readIndex term)
  | .confirm readIndex term =>
    match n.confirmPeers term with
    | .error e => goto (.failed e)
    | .ok (majority, peers) =>
      -- one acknowledgement is the leader's own
      if 1 ≥ majority then goto (.waitApplied readIndex)
      else
        some (w.setGet k
          { g with
            phase := .collect readIndex 1 peers.length majority
            beats := peers.map (fun p => (p, term)) })
  | .collect readIndex acks pending majority =>
    match g.results with
    | [] => none
    | ok :: rest =>
      let pending := pending - 1
      let acks := if ok then acks + 1 else acks
      let phase :=
        if acks ≥ majority then .waitApplied readIndex
        else if acks + pending < majority then .failed .staleLeader
        else .collect readIndex acks pending majority
      some (w.setGet k { g with phase := phase, results := rest })
  | .waitApplied readIndex =>
    match n.waitAppliedPoll readIndex with
    | .done => goto .checkState
    | .failed e => goto (.failed e)
    | .again => some w
  | .checkState => if n.state ≠ .leader then goto (.failed .notLeader) else goto .read
  | .read => goto (.done n.machine)
  | _ => none

/-- `Server.httpAddrs`: what the peer hook last set, the configured addresses before. -/
def httpAddrs (S : Setup σ) (n : RaftNode σ) : AddrMap :=
  match n.hooked with
  | some h => h.2
  | none => (S.config n.id).httpAddrs

/-- `Server.httpAddr`. -/
def httpAddr (S : Setup σ) (n : RaftNode σ) (id : String) : String :=
  if id = "" then "" else ((httpAddrs S n).get? id).getD ""

/-- The tests of `forwardToLeader` before it sends: the leader's address is known, the
request has not been forwarded before, and the address is not this node's own. Returns
the node the request goes to. -/
def forwardTarget (S : Setup σ) (n : RaftNode σ) (p : PutOp) (leaderHTTP : String) :
    Option String :=
  if leaderHTTP = "" then none
  else if p.origin.isSome then none
  else if httpAddr S n n.id ≠ "" ∧ httpAddr S n n.id = leaderHTTP then none
  else S.httpHost leaderHTTP

/-- One critical section of a `PUT` request. -/
def runPut (S : Setup σ) (w : World σ) (k : Nat) (p : PutOp) : Option (World σ) :=
  let n := w.node p.node
  let goto (ph : PutPhase) : Option (World σ) := some (w.setPut k { p with phase := ph })
  match p.phase with
  | .start =>
    if p.key = [] then goto (.failed .emptyKey)
    else if n.state ≠ .leader then goto .notLeader
    else goto .propose
  | .propose =>
    let r := n.propose (S.encode p.key p.value)
    let w := w.setNode p.node r.1
    match r.2 with
    | .ok (index, term) =>
      some (w.setPut k { p with proposed := some (index, term), phase := .waitApplied index })
    | .error .notLeader => some (w.setPut k { p with phase := .notLeader })
    | .error e => some (w.setPut k { p with phase := .failed (.raft e) })
  | .waitApplied index =>
    match n.waitAppliedPoll index with
    | .done => goto .ok
    | .failed .notLeader => goto .notLeader
    | .failed e => goto (.failed (.raft e))
    | .again => some w
  | .notLeader => goto (.leaderAddr n.leaderID)
  | .leaderAddr id =>
    goto (.redirect id (if n.leaderID = "" then "" else (n.peerAddrs.get? n.leaderID).getD ""))
  | .redirect id addr =>
    let http := httpAddr S n id
    match forwardTarget S n p http with
    | none => goto (.failed (.notLeader id addr http))
    | some dst =>
      match Http.forwardedKey S.httpRedirect .put p.key with
      | none => goto (.failed (.notLeader id addr http))
      | some (some (.put, key)) =>
        let w := w.setPut k { p with phase := .forwarded }
        some { w with
          puts := w.puts ++ [{ node := dst, key := key, value := p.value, origin := some k }] }
      -- whatever else the server answers is passed on
      | some _ => goto .forwarded
  | _ => none

/-! ## Crashes -/

/-- The process `id` is gone and left `storage` behind. -/
def crashed (w : World σ) (id : String) (storage : Option Storage) : World σ where
  node := Function.update w.node id { w.node id with storage := storage }
  up := Function.update w.up id false
  calls := w.calls.map (fun c => if c.src = id then { c with waiting := false } else c)
  gets := w.gets.map
    (fun g =>
      if g.node = id then
        { g with beats := [], phase := if g.phase.running then .lost else g.phase }
      else g)
  puts := w.puts.map
    (fun p => if p.node = id ∧ p.phase.running then { p with phase := .lost } else p)

/-- The storage when only the first `saves` of the new saves were reached. -/
def cutSaves (before after : Option Storage) (saves : Nat) : Option Storage :=
  match before, after with
  | some b, some a =>
    some { a with saved := a.saved.drop (a.saved.length - b.saved.length - saves) }
  | _, _ => after

end World

/-- The node whose critical section an action runs. -/
def actor (w : World σ) : Action → Option String
  | .tick id _ | .go id _ | .propose id _ | .addServer id _ _ _ | .removeServer id _ => some id
  | .deliver k => w.calls[k]?.map (·.dst)
  | .reply k => w.calls[k]?.map (·.src)
  | .stepGet k | .beat k _ => w.gets[k]?.map (·.node)
  | .stepPut k => w.puts[k]?.map (·.node)
  | _ => none

/-- A wait ends with `e`: its time is up, or the node was stopped. -/
def aborts (n : RaftNode σ) (e : Err) : Bool :=
  decide (e = .timeout) || (decide (e = .stopped) && n.stopped)

/-- A request that was being handled when the process crashed is gone with it. -/
def consume (w : World σ) : Action → World σ
  | .deliver k =>
    match w.calls[k]? with
    | some c => w.setCall k { c with pending := false }
    | none => w
  | _ => w

open World in
def step (S : Setup σ) (w : World σ) : Action → Option (World σ)
  | .tick id due =>
    if w.up id && !(w.node id).stopped then some (w.setNode id ((w.node id).tick due)) else none
  | .go id k =>
    if w.up id then
      (w.node id).goroutines[k]?.map (fun g =>
        (w.setNode id
          { w.node id with goroutines := (w.node id).goroutines.eraseIdx k }).runGoroutine id g)
    else none
  | .deliver k =>
    w.calls[k]?.bind (fun c => if c.pending && w.up c.dst then some (w.deliverCall k c) else none)
  | .reply k =>
    w.calls[k]?.bind (fun c => if c.waiting && w.up c.src then w.replyCall k c else none)
  | .giveUp k =>
    w.calls[k]?.bind (fun c => if c.waiting && w.up c.src then some (w.giveUpCall k c) else none)
  | .propose id cmd => if w.up id then some (w.setNode id ((w.node id).propose cmd).1) else none
  | .addServer id target addr http =>
    if w.up id then some (w.setNode id ((w.node id).addServer target addr http).1) else none
  | .removeServer id target =>
    if w.up id then some (w.setNode id ((w.node id).removeServer target).1) else none
  | .startGet id => if w.up id then some { w with gets := w.gets ++ [{ node := id }] } else none
  | .stepGet k => w.gets[k]?.bind (fun g => if w.up g.node then w.runGet k g else none)
  | .beat k i => w.gets[k]?.bind (fun g => if w.up g.node then w.runBeat k g i else none)
  | .abortGet k e =>
    w.gets[k]?.bind (fun g =>
      if w.up g.node && g.phase.waits && aborts (w.node g.node) e then
        some (w.setGet k { g with phase := .failed e })
      else none)
  | .startPut id key body =>
    if w.up id then
      some { w with puts := w.puts ++ [{ node := id, key := key, value := Http.readBody body }] }
    else none
  | .stepPut k => w.puts[k]?.bind (fun p => if w.up p.node then w.runPut S k p else none)
  | .abortPut k e =>
    w.puts[k]?.bind (fun p =>
      match p.phase with
      | .waitApplied _ =>
        if w.up p.node && aborts (w.node p.node) e then
          some (w.setPut k { p with phase := .failed (.raft e) })
        else none
      | _ => none)
  | .stop id => if w.up id then some (w.setNode id { w.node id with stopped := true }) else none
  | .crash id => if w.up id then some (w.crashed id (w.node id).storage) else none
  | .crashDuring a saves =>
    (actor w a).bind (fun id =>
      (step S w a).map (fun w' =>
        (consume w a).crashed id (cutSaves (w.node id).storage (w'.node id).storage saves)))
  | .restart id =>
    if w.up id then none
    else
      some { w with
        node := Function.update w.node id
          (RaftNode.boot S.machine (S.config id) (w.node id).storage)
        up := Function.update w.up id true }

end Cluster
