import RaftStore.Cluster.Controller
import RaftStore.Results.Fixed

/-!
# Adding a node that is not added

`Cluster.Add` enters the new node into the configuration of the cluster, starts it, and then asks
the leader. When the call fails it crashes the node again, if it was started, but takes back nothing
of the configuration and keeps the record of the node (`failed_add_leaves`).

`failed_add_unchanged` says when this cannot be seen: the call fails before anything is entered, or
all of it was there already.
-/

namespace Controller

open Raft (RaftNode)

variable {σ : Type} {env : Env σ} {c : Cluster} {id raftAddr httpAddr r h : String} {e : Err}

/-- The configuration and the `Crashed` flags are as they were. -/
def Unchanged (c c' : Cluster) : Prop :=
  c'.cfg = c.cfg ∧
    ∀ id, (c'.members.get? id).map (·.crashed) = (c.members.get? id).map (·.crashed)

/-! ## What `Add` leaves -/

/-- A node cannot be started: there is no handler, or nothing listens on its address. -/
def Unstartable (env : Env σ) (c : Cluster) (raftAddr : String) : Prop :=
  c.http = false ∨ (tryListen (env.listen raftAddr)).isSome

/-- **The ways in which `Add` fails**, each with what it leaves: nothing, the addresses, or the
addresses and the record of a node that has crashed. -/
inductive AddFails (env : Env σ) (c : Cluster) (id raftAddr httpAddr : String) : Cluster → Prop
  | args {e : Err} (h : addArgs id raftAddr httpAddr = .error e) :
    AddFails env c id raftAddr httpAddr c
  | running (h : c.running id = true) : AddFails env c id raftAddr httpAddr c
  | start {r h : String} (hargs : addArgs id raftAddr httpAddr = .ok (r, h))
      (hdown : c.running id = false) (hfail : Unstartable env c r) :
      AddFails env c id raftAddr httpAddr { c with cfg := c.cfg.enter id r h }
  | leader {r h : String} (hargs : addArgs id raftAddr httpAddr = .ok (r, h))
      (hdown : c.running id = false) (hstart : ¬ Unstartable env c r) :
      AddFails env c id raftAddr httpAddr
        (crash ({ c with cfg := c.cfg.enter id r h }.launch id r true) id).1

theorem startMemberJoin_entered (hdown : c.running id = false) :
    startMemberJoin env { c with cfg := c.cfg.enter id r h } id true =
      if c.http = false then ({ c with cfg := c.cfg.enter id r h }, .error .missingHandler)
      else
        match tryListen (env.listen r) with
        | some cause => ({ c with cfg := c.cfg.enter id r h }, .error (.listen r cause))
        | none => ({ c with cfg := c.cfg.enter id r h }.launch id r true, .ok ()) := by
  have haddr : (c.cfg.enter id r h).raftAddrs.get? id = some r := by simp [Config.enter]
  have hdown' : ({ c with cfg := c.cfg.enter id r h } : Cluster).running id = false := hdown
  unfold startMemberJoin
  simp only [hdown', haddr]
  cases c.http with
  | false => rfl
  | true => rfl

theorem add_fails (herr : (add env c id raftAddr httpAddr).2 = .error e) :
    AddFails env c id raftAddr httpAddr (add env c id raftAddr httpAddr).1 := by
  unfold add at herr ⊢
  cases hargs : addArgs id raftAddr httpAddr with
  | error e' => exact .args hargs
  | ok p =>
    obtain ⟨r, h⟩ := p
    rw [hargs] at herr
    dsimp only at herr ⊢
    by_cases hup : c.running id = true
    · rw [if_pos hup]
      exact .running hup
    have hdown : c.running id = false := by simpa using hup
    rw [if_neg hup, startMemberJoin_entered hdown] at herr ⊢
    by_cases hhttp : c.http = false
    · rw [if_pos hhttp]
      exact .start hargs hdown (Or.inl hhttp)
    rw [if_neg hhttp] at herr ⊢
    cases hlisten : tryListen (env.listen r) with
    | some cause => exact .start hargs hdown (Or.inr (by simp [hlisten]))
    | none =>
      -- the node is up: the leader is not found, refuses, or does not apply the change in time
      have hstart : ¬ Unstartable env c r := by simp [Unstartable, hhttp, hlisten]
      have hleft := AddFails.leader hargs hdown hstart
      rw [hlisten] at herr
      dsimp only at herr ⊢
      unfold askToAdd at herr ⊢
      cases hfound : (List.range env.polls).findSome? fun k =>
          leaderNode ({ c with cfg := c.cfg.enter id r h }.launch id r true) (env.seen k) with
      | none => exact hleft
      | some leader =>
        cases hasked : (env.asked.addServer id r h).2 with
        | error e' => exact hleft
        | ok i =>
          cases hwaited : env.waited with
          | error e' => exact hleft
          | ok _ =>
            simp only [hfound, hasked, hwaited] at herr
            cases herr

/-! ## When nothing has changed -/

/-- The node is listed with these addresses, and it is down: it has crashed, or was never up and
does not come up. -/
structure Entered (env : Env σ) (c : Cluster) (id raftAddr httpAddr : String) : Prop where
  listed : id ∈ c.cfg.ids
  raft : c.cfg.raftAddrs.get? id = some raftAddr
  http : c.cfg.httpAddrs.get? id = some httpAddr
  down : (c.members.get? id).map (·.crashed) = some true ∨ Unstartable env c raftAddr

theorem enter_eq_self_iff (cfg : Config) :
    cfg.enter id r h = cfg ↔
      id ∈ cfg.ids ∧ cfg.raftAddrs.get? id = some r ∧ cfg.httpAddrs.get? id = some h := by
  obtain ⟨ids, raftAddrs, httpAddrs⟩ := cfg
  simp only [Config.enter, Config.mk.injEq, OrdMap.set_eq_self_iff]
  by_cases hid : id ∈ ids
  · simp [hid]
  · simp [hid]

theorem unchanged_enter_iff :
    Unchanged c { c with cfg := c.cfg.enter id r h } ↔
      id ∈ c.cfg.ids ∧ c.cfg.raftAddrs.get? id = some r ∧ c.cfg.httpAddrs.get? id = some h := by
  simp [Unchanged, enter_eq_self_iff]

/-- A node that was started and crashed again. -/
theorem crashed_launch (c : Cluster) (id raftAddr x : String) :
    ((crash (c.launch id raftAddr true) id).1.members.get? x).map (·.crashed) =
      if x = id then some true else (c.members.get? x).map (·.crashed) := by
  unfold crash Cluster.launch
  simp only [OrdMap.get?_set, if_true]
  by_cases hx : x = id
  · simp [hx]
  · simp [hx]

theorem unchanged_crashed_iff :
    Unchanged c (crash ({ c with cfg := c.cfg.enter id r h }.launch id r true) id).1 ↔
      (id ∈ c.cfg.ids ∧ c.cfg.raftAddrs.get? id = some r ∧ c.cfg.httpAddrs.get? id = some h) ∧
        (c.members.get? id).map (·.crashed) = some true := by
  unfold Unchanged
  simp only [crashed_launch, cfg_crash, cfg_launch, enter_eq_self_iff]
  refine and_congr_right fun _ => ⟨fun hall => ?_, fun hdown x => ?_⟩
  · have hflag := hall id
    rw [if_pos rfl] at hflag
    exact hflag.symm
  · by_cases hx : x = id
    · simp [hx, hdown]
    · simp [hx]

/-- **A failed `Add` changes nothing exactly when there was nothing to enter**: its arguments are
refused, the node is running, or it is listed with these addresses and down. -/
theorem failed_add_unchanged (herr : (add env c id raftAddr httpAddr).2 = .error e) :
    Unchanged c (add env c id raftAddr httpAddr).1 ↔
      c.running id = true ∨
        ∀ r h, addArgs id raftAddr httpAddr = .ok (r, h) → Entered env c id r h := by
  have hself : Unchanged c c := ⟨rfl, fun _ => rfl⟩
  -- the arguments determine the addresses
  have hsame : ∀ {r h r' h' : String}, addArgs id raftAddr httpAddr = .ok (r, h) →
      addArgs id raftAddr httpAddr = .ok (r', h') → r' = r ∧ h' = h := by
    intro r h r' h' h1 h2
    simpa using h2.symm.trans h1
  generalize hc' : (add env c id raftAddr httpAddr).1 = c'
  have hfails := hc' ▸ add_fails herr
  cases hfails with
  | args hargs =>
    refine ⟨fun _ => Or.inr fun r h hok => ?_, fun _ => hself⟩
    rw [hargs] at hok
    cases hok
  | running hup => exact ⟨fun _ => Or.inl hup, fun _ => hself⟩
  | start hargs hdown hfail =>
    rw [unchanged_enter_iff]
    constructor
    · rintro ⟨hid, hraft, hhttp⟩
      refine Or.inr fun r' h' hok => ?_
      obtain ⟨rfl, rfl⟩ := hsame hargs hok
      exact ⟨hid, hraft, hhttp, Or.inr hfail⟩
    · rintro (hup | hentered)
      · simp [hup] at hdown
      · have hent := hentered _ _ hargs
        exact ⟨hent.listed, hent.raft, hent.http⟩
  | leader hargs hdown hstart =>
    rw [unchanged_crashed_iff]
    constructor
    · rintro ⟨⟨hid, hraft, hhttp⟩, hcrashed⟩
      refine Or.inr fun r' h' hok => ?_
      obtain ⟨rfl, rfl⟩ := hsame hargs hok
      exact ⟨hid, hraft, hhttp, Or.inl hcrashed⟩
    · rintro (hup | hentered)
      · simp [hup] at hdown
      · have hent := hentered _ _ hargs
        exact ⟨⟨hent.listed, hent.raft, hent.http⟩, hent.down.resolve_right hstart⟩

/-! ## A cluster without a leader -/

/-- All addresses are free, and no node is a leader for as long as `Add` looks for one. -/
def leaderless : Env Unit where
  listen := fun _ _ => none
  polls := 150
  seen := fun _ id => RaftNode.boot Cluster.idle (memberConfig devConfig id "" false) none
  asked := RaftNode.boot Cluster.idle (memberConfig devConfig "n1" "" false) none
  waited := .ok ()

def devCluster : Cluster := (start leaderless (.new devConfig true)).1

/-- **A failed `Add` leaves the node behind**, in the configuration and among the members. -/
theorem failed_add_leaves :
    ¬ ∀ (env : Env Unit) (c : Cluster) (id raftAddr httpAddr : String) (e : Err),
      (add env c id raftAddr httpAddr).2 = .error e → (∀ e', e ≠ .notApplied e') →
      Unchanged c (add env c id raftAddr httpAddr).1 := by
  intro hall
  have hun := hall leaderless devCluster "n4" "" "" .noLeaderToAdd (by decide +kernel) (by simp)
  have hids : (add leaderless devCluster "n4" "" "").1.cfg.ids = ["n1", "n2", "n3", "n4"] := by
    decide +kernel
  rw [hun.1] at hids
  exact absurd hids (by decide +kernel)

/-- The second attempt finds everything that the first one has left. -/
theorem failed_add_unchanged_sample :
    Unchanged (add leaderless devCluster "n4" "" "").1
      (add leaderless (add leaderless devCluster "n4" "" "").1 "n4" "" "").1 := by
  have herr : (add leaderless (add leaderless devCluster "n4" "" "").1 "n4" "" "").2 =
      .error .noLeaderToAdd := by decide +kernel
  refine (failed_add_unchanged herr).mpr (Or.inr fun r h hargs => ?_)
  obtain ⟨rfl, rfl⟩ : r = "127.0.0.1:19104" ∧ h = "127.0.0.1:18104" := by
    have hdefault : addArgs "n4" "" "" = .ok ("127.0.0.1:19104", "127.0.0.1:18104") := by
      decide +kernel
    simpa using hargs.symm.trans hdefault
  exact ⟨by decide +kernel, by decide +kernel, by decide +kernel, Or.inl (by decide +kernel)⟩

end Controller
