import RaftStore.Cluster.Hearing
import RaftStore.Cluster.Runs
import RaftStore.Node.Loops

/-!
# Nobody is forgotten

A leader replicates to a peer only while `replicating[peer]` is unset. A flag that stayed set
without a goroutine to clear it would cut the peer off for as long as the leader leads.

`Tended` says that this does not happen: whoever is marked has a goroutine that is ready to run or
waits for a reply. It holds in every state that the cluster can reach (`equipped_run`), whatever
crashes, is lost or is reordered.
-/

namespace Cluster

open Raft Node

variable {σ : Type} {S : Setup σ} {w w' : World σ} {act : Action} {id p : String} {k : Nat}
  {c : Call}

/-- The call was sent by a `replicateTo`. -/
def Rpc.replicates : Rpc → Bool
  | .appendEntries _ _ none => true
  | .installSnapshot _ _ => true
  | _ => false

theorem replicates_request (rpc : Rpc) : rpc.request.replicates = rpc.replicates := by
  rcases rpc with ⟨req, resp⟩ | ⟨req, resp, _ | read⟩ | ⟨req, resp⟩ <;> rfl

/-- Call number `k` is a round of a `replicateTo` of `id` that waits for its reply. -/
structure OpenRound (w : World σ) (id p : String) (k : Nat) (c : Call) : Prop where
  get : w.calls[k]? = some c
  src_eq : c.src = id
  dst_eq : c.dst = p
  waiting : c.waiting = true
  replicates : c.rpc.replicates = true

/-- A `replicateTo` of `id` for `p` is ready to run, or waits for a reply. -/
def Active (w : World σ) (id p : String) : Prop :=
  InLoop (w.node id).goroutines p ∨ ∃ k c, OpenRound w id p k c

/-- Every peer that is marked has its goroutine. -/
def Tended (w : World σ) (id : String) : Prop :=
  ∀ p, (w.node id).replicating p = true → Active w id p

/-! ## Rounds -/

/-- A round goes on unless its caller gets a reply or an error. -/
theorem OpenRound.step (h : OpenRound w id p k c) (hstep : step S w act = some w')
    (hproc : act.ofProcess = false) :
    (∃ c', OpenRound w' id p k c') ∨ act = .reply k ∨ act = .giveUp k := by
  by_cases hends : EndsWait act k
  · rcases hends with hreply | hgive | hof
    · exact Or.inr (Or.inl hreply)
    · exact Or.inr (Or.inr hgive)
    · rw [hproc] at hof
      cases hof
  · obtain ⟨c', hk, hkept⟩ := (calls_step hstep).old h.get
    refine Or.inl ⟨c', hk, hkept.src_eq.trans h.src_eq, hkept.dst_eq.trans h.dst_eq, ?_, ?_⟩
    · exact (hkept.waiting_eq hends).trans h.waiting
    · rw [← replicates_request, hkept.request_eq, replicates_request]
      exact h.replicates

/-- Without a reply or an error, a live peer stays so if the goroutines do. -/
theorem Active.of_mem (h : Active w id p) (hstep : step S w act = some w')
    (hproc : act.ofProcess = false) (hreply : ∀ k, act ≠ .reply k) (hgive : ∀ k, act ≠ .giveUp k)
    (hmem : InLoop (w.node id).goroutines p → InLoop (w'.node id).goroutines p) :
    Active w' id p := by
  rcases h with hin | ⟨k, c, hround⟩
  · exact Or.inl (hmem hin)
  rcases hround.step hstep hproc with ⟨c', hround'⟩ | hact | hact
  · exact Or.inr ⟨k, c', hround'⟩
  · exact absurd hact (hreply k)
  · exact absurd hact (hgive k)

/-! ## One step -/

theorem Tended.of_active (h : Tended w id)
    (hbusy : ∀ p, (w'.node id).replicating p = true →
      (w.node id).replicating p = true ∨ InLoop (w'.node id).goroutines p)
    (hlive : ∀ p, (w'.node id).replicating p = true → Active w id p → Active w' id p) :
    Tended w' id := by
  intro p hp
  rcases hbusy p hp with hold | hnew
  · exact hlive p hp (h p hold)
  · exact Or.inl hnew

/-- A section that takes no reply. -/
theorem Tended.of_kept (h : Tended w id) (hstep : step S w act = some w')
    (hproc : act.ofProcess = false) (hreply : ∀ k, act ≠ .reply k) (hgive : ∀ k, act ≠ .giveUp k)
    (hkept : LoopsKept (w.node id) (w'.node id)) : Tended w' id := by
  refine h.of_active (fun p hp => (hkept.busy p hp).imp_right Or.inl) (fun p _ hlive => ?_)
  exact hlive.of_mem hstep hproc hreply hgive (fun hin => hin.mono hkept.mem)

/-- A section that takes the reply or the error of a call: if the call was a round, the goroutine
goes on. -/
theorem Tended.of_answered (h : Tended w c.src) (hstep : step S w act = some w')
    (hact : act = .reply k ∨ act = .giveUp k) (hk : w.calls[k]? = some c)
    (hkept : LoopsKept (w.node c.src) (w'.node c.src))
    (hloop : c.rpc.replicates = true → InLoop (w'.node c.src).goroutines c.dst) :
    Tended w' c.src := by
  have hproc : act.ofProcess = false := by
    rcases hact with rfl | rfl <;> rfl
  refine h.of_active (fun p hp => (hkept.busy p hp).imp_right Or.inl) (fun p _ hlive => ?_)
  rcases hlive with hin | ⟨i, x, hround⟩
  · exact Or.inl (hin.mono hkept.mem)
  by_cases hik : i = k
  · -- the round that this call was
    subst hik
    have hx : c = x := Option.some.inj (hk.symm.trans hround.get)
    subst hx
    exact Or.inl (hround.dst_eq ▸ hloop hround.replicates)
  rcases hround.step hstep hproc with ⟨x', hround'⟩ | hi | hi
  · exact Or.inr ⟨i, x', hround'⟩
  · rcases hact with rfl | rfl
    · exact absurd (Action.reply.inj hi).symm hik
    · cases hi
  · rcases hact with rfl | rfl
    · cases hi
    · exact absurd (Action.giveUp.inj hi).symm hik

theorem mem_eraseIdx_of_ne {gs : List Goroutine} {g x : Goroutine} (hk : gs[k]? = some g)
    (hx : x ∈ gs) (hne : x ≠ g) : x ∈ gs.eraseIdx k := by
  obtain ⟨i, hi⟩ := List.mem_iff_getElem?.mp hx
  refine List.mem_eraseIdx_iff_getElem?.mpr ⟨i, ?_, hi⟩
  rintro rfl
  rw [hk, Option.some.injEq] at hi
  exact hne hi.symm

/-- A `replicateTo` that has run up to its next RPC ends, or waits for the reply. -/
theorem active_replicateTo (w : World σ) (id peer : String) :
    LoopsKept (w.node id) ((w.runGoroutine id (.replicateTo peer)).node id) ∧
      Active (w.runGoroutine id (.replicateTo peer)) id peer := by
  have hhead : LoopsKept (w.node id) ((w.node id).replicateToHead peer).1 := by
    refine .of_eq ?_
    rcases (w.node id).replicateToHead_fst peer with heq | heq
    · rw [heq]
    · rw [heq]
      rfl
  -- the call that is added is the last one
  have hround : ∀ rpc : Rpc, rpc.replicates = true → ∀ v : World σ,
      v.calls = w.calls ++ [{ src := id, dst := peer, rpc := rpc }] →
      OpenRound v id peer w.calls.length { src := id, dst := peer, rpc := rpc } :=
    fun rpc hrpc v hv => ⟨by simp [hv], rfl, rfl, rfl, hrpc⟩
  unfold World.runGoroutine
  dsimp only
  split
  · have hon := loopsOn_again hhead peer false
    refine ⟨?_, Or.inl ?_⟩
    · simpa [World.setNode] using hon.toLoopsKept
    · simpa [World.setNode] using hon.loop
  · refine ⟨?_, Or.inr ⟨_, _, hround _ rfl _ rfl⟩⟩
    simpa [World.setNode, World.addCall] using hhead
  · refine ⟨?_, Or.inr ⟨_, _, hround _ rfl _ rfl⟩⟩
    simpa [World.setNode, World.addCall] using hhead

/-- A goroutine runs. It is not ready any more, and the loops of the other peers still are. -/
theorem Tended.go {g : Goroutine} (h : Tended w id) (hk : (w.node id).goroutines[k]? = some g)
    (hstep : Cluster.step S w (.go id k) = some ((w.setNode id
      { w.node id with goroutines := (w.node id).goroutines.eraseIdx k }).runGoroutine id g)) :
    Tended ((w.setNode id
      { w.node id with
        goroutines := (w.node id).goroutines.eraseIdx k }).runGoroutine id g) id := by
  set v := w.setNode id { w.node id with goroutines := (w.node id).goroutines.eraseIdx k } with hv
  have hself : v.node id = { w.node id with goroutines := (w.node id).goroutines.eraseIdx k } := by
    simp [hv, World.setNode]
  have hflag : (v.node id).replicating = (w.node id).replicating := by rw [hself]
  have hrest : ∀ x ∈ (w.node id).goroutines, x ≠ g → x ∈ (v.node id).goroutines := by
    intro x hx hne
    rw [hself]
    exact mem_eraseIdx_of_ne hk hx hne
  -- a live peer other than the goroutine's own
  have hother : ∀ p, g ≠ .replicateTo p → g ≠ .replicateToDone p →
      (∀ x ∈ (v.node id).goroutines, x ∈ ((v.runGoroutine id g).node id).goroutines) →
      Active w id p → Active (v.runGoroutine id g) id p := by
    intro p hto hdone hmem hlive
    refine hlive.of_mem hstep rfl (by simp) (by simp) (fun hin => ?_)
    exact InLoop.mono (hin.imp (fun hx => hrest _ hx hto.symm)
      (fun hx => hrest _ hx hdone.symm)) hmem
  cases g with
  | replicateTo peer =>
    obtain ⟨hkept, hlive⟩ := active_replicateTo v id peer
    refine h.of_active (fun p hp => ?_) (fun p _ hp => ?_)
    · exact (hkept.busy p hp).imp (fun hold => by rw [← hflag]; exact hold) Or.inl
    · by_cases heq : p = peer
      · rw [heq]
        exact hlive
      · exact hother p (fun hg => heq (Goroutine.replicateTo.inj hg).symm) (by simp) hkept.mem hp
  | replicateToDone peer =>
    -- the deferred function clears the flag that the goroutine stood for
    have hnode : (v.runGoroutine id (.replicateToDone peer)).node id =
        (v.node id).replicateToDone peer := by simp [World.runGoroutine, World.setNode]
    have hne : ∀ p, ((v.runGoroutine id (.replicateToDone peer)).node id).replicating p = true →
        p ≠ peer := by
      rintro p hp rfl
      simp [hnode, RaftNode.replicateToDone] at hp
    refine h.of_active (fun p hp => ?_) (fun p hp hlive => ?_)
    · left
      have hpeer := hne p hp
      rw [← hflag]
      simpa [hnode, RaftNode.replicateToDone, hpeer] using hp
    · refine hother p (by simp)
        (fun hg => hne p hp (Goroutine.replicateToDone.inj hg).symm) ?_ hlive
      intro x hx
      rw [hnode]
      exact hx
  | sendRequestVote peer req =>
    have hnode : (v.runGoroutine id (.sendRequestVote peer req)).node = v.node := by
      simp only [World.runGoroutine]
      split <;> rfl
    refine h.of_active (fun p hp => ?_) (fun p _ hlive => ?_)
    · left
      rw [hnode, hflag] at hp
      exact hp
    · exact hother p (by simp) (by simp) (fun x hx => by rw [hnode]; exact hx) hlive

theorem Tended.reply (h : Tended w c.src) (hk : w.calls[k]? = some c)
    (hstep : Cluster.step S w (.reply k) = some w') (hreply : w.replyCall k c = some w') :
    Tended w' c.src := by
  unfold World.replyCall at hreply
  dsimp only at hreply
  split at hreply
  · next req resp hrpc =>
    cases hreply
    refine h.of_answered hstep (Or.inl rfl) hk ?_ (fun hr => by rw [hrpc] at hr; cases hr)
    simpa [World.setNode, World.setCall] using loops_voteReply (w.node c.src) c.dst req resp
  · next req resp hrpc =>
    cases hreply
    have hon := loopsOn_appended (w.node c.src) c.dst req resp
    refine h.of_answered hstep (Or.inl rfl) hk ?_ (fun _ => ?_)
    · simpa [World.setNode, World.setCall] using hon.toLoopsKept
    · simpa [World.setNode, World.setCall] using hon.loop
  · next req resp read hrpc =>
    -- a heartbeat of a read is no round
    cases hreply
    refine h.of_answered hstep (Or.inl rfl) hk ?_ (fun hr => by rw [hrpc] at hr; cases hr)
    simpa [World.setNode, World.setCall, handle] using
      loops_handle (w.node c.src) (.confirmReply req.term resp) (by simp)
  · next req resp hrpc =>
    cases hreply
    have hon := loopsOn_installed (w.node c.src) c.dst req resp
    refine h.of_answered hstep (Or.inl rfl) hk ?_ (fun _ => ?_)
    · simpa [World.setNode, World.setCall] using hon.toLoopsKept
    · simpa [World.setNode, World.setCall] using hon.loop
  · cases hreply

theorem Tended.giveUp (h : Tended w c.src) (hk : w.calls[k]? = some c)
    (hstep : Cluster.step S w (.giveUp k) = some (w.giveUpCall k c)) :
    Tended (w.giveUpCall k c) c.src := by
  have hon : LoopsOn (w.node c.src) c.dst ((w.node c.src).replicateAgain c.dst false) :=
    loopsOn_again (.of_eq rfl) c.dst false
  unfold World.giveUpCall at hstep ⊢
  dsimp only at hstep ⊢
  cases hrpc : c.rpc with
  | requestVote req resp =>
    simp only [hrpc] at hstep
    exact h.of_answered hstep (Or.inr rfl) hk (.of_eq rfl) (fun hr => by rw [hrpc] at hr; cases hr)
  | installSnapshot req resp =>
    simp only [hrpc] at hstep
    refine h.of_answered hstep (Or.inr rfl) hk ?_ (fun _ => ?_)
    · simpa [World.setNode, World.setCall] using hon.toLoopsKept
    · simpa [World.setNode, World.setCall] using hon.loop
  | appendEntries req resp read =>
    cases read with
    | none =>
      simp only [hrpc] at hstep
      refine h.of_answered hstep (Or.inr rfl) hk ?_ (fun _ => ?_)
      · simpa [World.setNode, World.setCall] using hon.toLoopsKept
      · simpa [World.setNode, World.setCall] using hon.loop
    | some read =>
      simp only [hrpc] at hstep
      refine h.of_answered hstep (Or.inr rfl) hk (.of_eq ?_)
        (fun hr => by rw [hrpc] at hr; cases hr)
      rw [node_result]
      rfl

/-- The processes of other nodes crash: nothing changes for this one. -/
theorem Tended.crashed (h : Tended w id) {j : String} (hj : id ≠ j) (inner : Action)
    (storage : Option Storage) : Tended ((consume w inner).crashed j storage) id := by
  obtain ⟨calls, hcons⟩ := consume_eq w inner
  have hnode : ((consume w inner).crashed j storage).node id = w.node id := by
    simp [World.crashed, hcons, hj]
  refine h.of_active (fun p hp => Or.inl (by rw [← hnode]; exact hp)) (fun p _ hlive => ?_)
  rcases hlive with hin | ⟨i, c, hround⟩
  · exact Or.inl (by rw [hnode]; exact hin)
  -- a request that was being handled is lost, and its caller still waits
  have hlost : ∃ c', OpenRound (consume w inner) id p i c' := by
    cases inner with
    | deliver k =>
      simp only [consume]
      split
      · next x hx =>
        by_cases hik : i = k
        · subst hik
          have hxc : x = c := Option.some.inj (hx.symm.trans hround.get)
          subst hxc
          have hlt := (List.getElem?_eq_some_iff.mp hx).1
          exact ⟨_, List.getElem?_set_self hlt, hround.src_eq, hround.dst_eq, hround.waiting,
            hround.replicates⟩
        · exact ⟨c, { hround with get := (List.getElem?_set_ne (Ne.symm hik)).trans hround.get }⟩
      · exact ⟨c, hround⟩
    | _ => exact ⟨c, hround⟩
  obtain ⟨c', hround'⟩ := hlost
  refine Or.inr ⟨i, c', ?_, hround'.src_eq, hround'.dst_eq, hround'.waiting, hround'.replicates⟩
  simp [World.crashed, hround'.get, hround'.src_eq, hj]

theorem kept_setNode {j : String} {n' : RaftNode σ} (h : LoopsKept (w.node j) n') (id : String) :
    LoopsKept (w.node id) ((w.setNode j n').node id) := by
  by_cases hid : id = j
  · subst hid
    simpa [World.setNode] using h
  · refine .of_eq ?_
    simp [World.setNode, hid]

/-- A step other than those that take a goroutine or end a call. -/
theorem loopsKept_step (hstep : step S w act = some w') (hproc : act.ofProcess = false)
    (hgo : ∀ j k, act ≠ .go j k) (hreply : ∀ k, act ≠ .reply k) (hgive : ∀ k, act ≠ .giveUp k)
    (hstop : ∀ j, act ≠ .stop j) (id : String) : LoopsKept (w.node id) (w'.node id) := by
  cases stepped_of_step hstep with
  | @tick j due => exact kept_setNode (loops_tick _ due) id
  | go => exact absurd rfl (hgo _ _)
  | @deliver _ c =>
    unfold World.deliverCall
    cases c.rpc with
    | requestVote req resp => exact kept_setNode (.of_eq (threads_handleRequestVote _ req)) id
    | appendEntries req resp read => exact kept_setNode (loops_handleAppendEntries _ req) id
    | installSnapshot req resp => exact kept_setNode (loops_handleInstallSnapshot _ req) id
  | reply => exact absurd rfl (hreply _)
  | giveUp => exact absurd rfl (hgive _)
  | @propose j cmd => exact kept_setNode (loops_propose _ cmd) id
  | @addServer j target addr http =>
    exact kept_setNode (loops_handle _ (.addServer target addr http) (by simp)) id
  | @removeServer j target =>
    exact kept_setNode (loops_handle _ (.removeServer target) (by simp)) id
  | stepGet _ _ hrun =>
    cases getSection_of_runGet hrun with
    | polls => exact kept_setNode (loops_readIndex _) id
    | polled => exact kept_setNode (loops_readIndex _) id
    | _ => exact .of_eq rfl
  | beat _ _ hrun =>
    obtain ⟨b, _, rfl⟩ := Option.map_eq_some_iff.mp hrun
    refine .of_eq ?_
    dsimp only
    split
    · rw [node_result]
      rfl
    · rfl
  | stepPut _ _ hrun =>
    cases putSection_of_runPut hrun with
    | accepted => exact kept_setNode (loops_propose _ _) id
    | refused => exact kept_setNode (loops_propose _ _) id
    | _ => exact .of_eq rfl
  | stop => exact absurd rfl (hstop _)
  | crash => cases hproc
  | crashDuring => cases hproc
  | restart => cases hproc
  | _ => exact .of_eq rfl

/-- A node that the step leaves alone. -/
theorem Tended.of_untouched (h : Tended w id) (hstep : step S w act = some w')
    (hproc : act.ofProcess = false) (hne : touched w act ≠ some id) : Tended w' id := by
  have hnode := node_of_untouched hstep hne
  refine h.of_active (fun p hp => Or.inl (by rw [← hnode]; exact hp)) (fun p _ hlive => ?_)
  rcases hlive with hin | ⟨k, c, hround⟩
  · exact Or.inl (by rw [hnode]; exact hin)
  -- only its own caller takes a reply or an error
  have htouch : w.calls[k]?.map (·.src) = some id := by rw [hround.get, ← hround.src_eq]; rfl
  rcases hround.step hstep hproc with ⟨c', hround'⟩ | rfl | rfl
  · exact Or.inr ⟨k, c', hround'⟩
  · exact absurd htouch hne
  · exact absurd htouch hne

/-- **One step leaves nobody behind.** -/
theorem tended_step (hstep : step S w act = some w') (h : w.up id = true → Tended w id)
    (hup : w'.up id = true) : Tended w' id := by
  cases hproc : act.ofProcess with
  | true =>
    cases stepped_of_step hstep with
    | @crash j =>
      have hj : id ≠ j := by rintro rfl; simp [World.crashed] at hup
      exact (h (by simpa [World.crashed, hj] using hup)).crashed hj (.crash j) _
    | @crashDuring inner saves j v =>
      obtain ⟨calls, hcons⟩ := consume_eq w inner
      have hj : id ≠ j := by rintro rfl; simp [World.crashed] at hup
      exact (h (by simpa [World.crashed, hj, hcons] using hup)).crashed hj inner _
    | @restart j =>
      by_cases hj : id = j
      · -- a process that has just started has no marks
        subst hj
        intro p hp
        have hboot := congrArg Prod.fst (marks_boot S.machine (S.config id) (w.node id).storage)
        simp only [marks] at hboot
        simp [hboot] at hp
      · refine (h (by simpa [hj] using hup)).of_active (fun p hp => Or.inl ?_) (fun p _ hlive => ?_)
        · simpa [hj] using hp
        · rcases hlive with hin | ⟨k, c, hround⟩
          · exact Or.inl (by simpa [hj] using hin)
          · exact Or.inr ⟨k, c, { hround with }⟩
    | _ => cases hproc
  | false =>
    have hw : Tended w id := h (by rw [← (heard_step hstep hproc).up_eq]; exact hup)
    by_cases hne : touched w act = some id
    · cases stepped_of_step hstep with
      | go _ hk =>
        cases hne
        exact hw.go hk hstep
      | reply hk _ _ hreply =>
        simp only [touched, hk, Option.map_some, Option.some.injEq] at hne
        subst hne
        exact hw.reply hk hstep hreply
      | giveUp hk =>
        simp only [touched, hk, Option.map_some, Option.some.injEq] at hne
        subst hne
        exact hw.giveUp hk hstep
      | stop =>
        cases hne
        refine hw.of_active (fun p hp => Or.inl ?_) (fun p _ hlive => ?_)
        · simpa [World.setNode] using hp
        · refine hlive.of_mem hstep rfl (by simp) (by simp) (fun hin => ?_)
          simpa [World.setNode] using hin
      | _ =>
        exact hw.of_kept hstep hproc (by simp) (by simp)
          (loopsKept_step hstep hproc (by simp) (by simp) (by simp) (by simp) id)
    · exact hw.of_untouched hstep hproc hne

/-- The flags of a node that is not stopped and whose process neither starts nor ends. -/
theorem flags_step (hstep : step S w act = some w') (hproc : act.ofProcess = false)
    (hstop : act ≠ .stop id) : FlagsKept (w.node id) (w'.node id) := by
  obtain ⟨gs, stopped, ev, hsame, _, heq⟩ := (heard_step hstep hproc).node id
  have hkept := flags_handle { w.node id with goroutines := gs, stopped := stopped } ev
  rw [heq]
  exact ⟨hkept.stopped_eq.trans (hsame.resolve_right hstop), hkept.joined⟩

/-! ## Runs -/

/-- What a process needs in order to replicate. -/
structure Equipped (w : World σ) (id : String) : Prop where
  tended : Tended w id
  transport : (w.node id).transport.isSome = true

theorem equipped_init (S : Setup σ) (id : String) : Equipped (World.init S) id := by
  refine ⟨fun p hp => ?_, rfl⟩
  have hboot := congrArg Prod.fst (marks_boot S.machine (S.config id) (some {}))
  simp only [marks] at hboot
  simp [World.init, hboot] at hp

theorem equipped_step (hstep : step S w act = some w') (h : w.up id = true → Equipped w id)
    (hup : w'.up id = true) : Equipped w' id := by
  refine ⟨tended_step hstep (fun hw => (h hw).tended) hup, ?_⟩
  by_cases hact : act = .restart id
  · subst hact
    rw [node_restart hstep]
    rfl
  · obtain ⟨hw, gs, stopped, ev, _, _, heq⟩ := step_heard hstep hup hact
    have htr : ({ w.node id with
        goroutines := gs, stopped := stopped } : RaftNode σ).transport.isSome =
        true := (h hw).transport
    rw [heq]
    exact kept_transport.handle (accepts_transport _ ev) htr

/-- **In every state that the cluster can reach**, whoever is marked has its goroutine. -/
theorem equipped_run {ok : World σ → Action → Prop} {acts : List Action}
    (hrun : Run S ok (World.init S) acts w) (hup : w.up id = true) : Equipped w id := by
  have hpres : ∀ v act v', (v.up id = true → Equipped v id) → ok v act → step S v act = some v' →
      v'.up id = true → Equipped v' id := fun _ _ _ h _ hstep => equipped_step hstep h
  have hinv := hrun.invariant hpres (fun _ => equipped_init S id)
  exact hinv hup

end Cluster
