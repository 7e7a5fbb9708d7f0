import RaftStore.Cluster.Requests
import RaftStore.Results.Fixed

/-!
# Acknowledged writes

`Server.Put` proposes a command and waits until the index it was given has been applied. It
drops the term of the proposal, so it cannot tell its own entry from one that has taken the
place of it: a deposed leader that is still being polled may have its log overwritten by its
successor and then apply the successor's entry at the index the client waits for
(`overwritten_write`).

Where nothing overwrites the entry while the client waits, an acknowledged write is the
client's own, at every node and for good (`acknowledged_write`).
-/

namespace Cluster

open Raft Refine Consensus

variable {σ : Type} {S : Setup σ} {members : AddrMap} {X : Mode σ} {a a' : Chron}
  {w w' : World σ} {acts : List Action} {act : Action} {p p' : PutOp}

/-- The entry that a write has put on record. -/
def PutOp.entry (S : Setup σ) (p : PutOp) (i t : Int) : LogEntry :=
  { term := t, index := i, command := S.encode p.key p.value }

/-- Every acknowledged write is the client's own: the history of the run has, at the index that was
waited for, the entry that was proposed. -/
def OwnWrites (S : Setup σ) (H : List LogEntry) (w : World σ) : Prop :=
  ∀ p ∈ w.puts, p.phase = .ok → ∃ i t, p.proposed = some (i, t) ∧ 0 < i ∧
    H[i.toNat - 1]? = some (p.entry S i t)

/-! ## A write that is overwritten

`n1` accepts a write at index 2 in term 1 and is deposed before it has sent it to anyone. `n2`
is elected by `n3`, commits another command at index 2, and replicates it to `n1`. -/

def overwriting : List Action :=
  [.tick "n1" true, .go "n1" 0, .deliver 0, .reply 0,
    .startPut "n1" [0x6b] [7], .stepPut 0, .stepPut 0,
    .tick "n2" true, .go "n2" 1, .deliver 1, .reply 1,
    .propose "n2" [9], .go "n2" 2, .deliver 2, .reply 2,
    .go "n2" 1, .deliver 3, .stepPut 0]

theorem idle_lawful : Lawful idle :=
  fun _ _ hd => ⟨by cases hd; decide, fun _ => rfl⟩

theorem sample_substantial : Substantial sample := by
  intro m d hd
  cases hd
  decide

/-- **An acknowledged write need not be in the log.** The run has a history, the client of the first
write is told that it succeeded, and the node it asked has applied another command in its place. -/
theorem overwritten_write : ∃ acts w, Run sample NoChange (World.init sample) acts w ∧
    (∃ H, HistoryOf sample threeNodes acts H) ∧
    ∀ H, HistoryOf sample threeNodes acts H → ¬ OwnWrites sample H w := by
  have hrun : Run sample NoChange (World.init sample) overwriting
      (after sample (World.init sample) overwriting) :=
    run_after (by simp [overwriting, NoChange]) (by decide +kernel)
  refine ⟨overwriting, _, hrun, ?_, ?_⟩
  -- the run has a history
  · have hcalm : Run sample (fun w act => NoChange w act ∧ KeepsLogs w act) (World.init sample)
        overwriting (after sample (World.init sample) overwriting) :=
      run_checked (g := calm) (fun _ _ hg => ⟨noChange_of_calm hg, keepsLogs_of_calm hg⟩)
        (by decide +kernel) (by decide +kernel)
    obtain ⟨_, H, _, _, _, _, hhist⟩ :=
      compacted_history sample_fixed sample_substantial idle_lawful hcalm
    exact ⟨H, hhist⟩
  · intro H hhist hown
    -- the write was acknowledged at index 2 in term 1
    obtain ⟨p, hp, hok, hprop⟩ : ∃ p ∈ (after sample (World.init sample) overwriting).puts,
        p.phase = .ok ∧ p.proposed = some (2, 1) := by decide +kernel
    obtain ⟨i, t, hit, _, hget⟩ := hown p hp hok
    rw [hprop] at hit
    cases hit
    -- n1 has called `apply` with the entry of term 2
    have hf := hhist.follows _ (passes_of_run hrun) "n1"
    have happ := (hf.applies 2 { term := 2, index := 2, command := [9] } (by decide +kernel)).2.2
    rw [hget] at happ
    cases congrArg LogEntry.term (Option.some.inj happ)

/-! ## Writes that are left alone -/

/-- A write along a run: while it waits its entry stands in the node's log, and once it is
acknowledged its entry is settled. -/
def Tracked (X : Mode σ) (a : Chron) (p : PutOp) : Prop :=
  PutLogged X a p ∧ (p.phase = .ok → ∃ i t, p.proposed = some (i, t) ∧ 0 < i ∧
    ∃ T l, Settled a T l ∧ l[i.toNat - 1]? = some (p.entry X.setup i t))

/-- A write that waits keeps its entry if the step leaves it alone. -/
theorem logged_step (hadv : Advanced X act a a' w w') (hkept : WritesKept w act)
    (hold : ∀ p ∈ w.puts, Tracked X a p) (hp : p ∈ w'.puts) : PutLogged X a' p := by
  rcases hadv.puts p hp with hnew | ⟨hmem, hpre⟩
  · exact hnew
  · refine ⟨(hold p hmem).1.1.mono hadv.grown, fun i t hphase hprop => ?_⟩
    have h0 := ((hold p hmem).1.1.1 i t hprop).1
    exact getElem?_of_isPrefix (hpre _ (hkept p hmem i hphase))
      (getElem?_take_succ ((hold p hmem).1.2 i t hphase hprop) (by omega))

/-- A write becomes acknowledged when its node has applied its index, which is where its entry
stands. -/
theorem settled_step (hw : WorldRel X a w) (hs : X.strict) (hadv : Advanced X act a a' w w')
    (hputs : PutsStep X.setup act w w') (hold : ∀ p ∈ w.puts, Tracked X a p) (hp : p' ∈ w'.puts)
    (hok : p'.phase = .ok) : ∃ i t, p'.proposed = some (i, t) ∧ 0 < i ∧
      ∃ T l, Settled a' T l ∧ l[i.toNat - 1]? = some (p'.entry X.setup i t) := by
  obtain ⟨k, hk⟩ := List.mem_iff_getElem?.mp hp
  -- it has just been acknowledged, or it was before
  rcases hputs.cases hk with ⟨p, hpk, hmove⟩ | ⟨_, hnew⟩
  · have htr := hold p (List.mem_of_getElem? hpk)
    cases hmove with
    | stays =>
      obtain ⟨i, t, hprop, h0, T, l, hset, hget⟩ := htr.2 hok
      exact ⟨i, t, hprop, h0, T, l, hset.mono hw.good.inv hadv.grown (le_refl _), hget⟩
    | @succeeds i hphase hup happ =>
      obtain ⟨t, hprop⟩ := htr.1.1.2 i hphase
      have h0 := (htr.1.1.1 i t hprop).1
      -- its entry was applied, so it is settled
      obtain ⟨T, l, hset, hget⟩ :=
        hw.settled_applied hs hup h0 happ (htr.1.2 i t hphase hprop)
      exact ⟨i, t, hprop, h0, T, l, hset.mono hw.good.inv hadv.grown (le_refl _), hget⟩
    | begins hphase => cases hok
    | proposes hphase hres => cases hok
    | asks hrun hph => rcases hph with rfl | ⟨_, rfl⟩ | ⟨_, _, rfl⟩ <;> cases hok
    | forwards hphase => cases hok
    | ends hrun hph => rcases hph with rfl | ⟨_, rfl⟩ <;> cases hok
  · cases hnew with
    | request node key value => cases hok
    | forward dst key hact hk hphase htarget hkey hdone => cases hok

/-- **Writes along a run.** -/
theorem exists_tracked (hS : Joinable S members) (hsub : Substantial S)
    (hrun : Run S (fun w act => Careful members w act ∧ WritesKept w act) (World.init S) acts w) :
    ∃ a, WorldRel (joinMode S members) a w ∧ Recounts (joinMode S members) acts a ∧
      ∀ p ∈ w.puts, Tracked (joinMode S members) a p := by
  have hv := joinMode_valid hS hsub
  obtain ⟨a, ha, hpath⟩ := StepPath.traced
    (R := fun a w => WorldRel (joinMode S members) a w ∧
      ∀ p ∈ w.puts, Tracked (joinMode S members) a p)
    (T := fun a w act a' w' => step S w act = some w' ∧
      WorldRel (joinMode S members) a' w' ∧ Extends a a')
    (fun a w act w' hrel hok hstep => by
      obtain ⟨a', hadv⟩ := hrel.1.step hv (admissible_of_careful hok.1) hstep
      refine ⟨a', ⟨hadv.rel, fun p hp => ⟨logged_step hadv hok.2 hrel.2 hp, ?_⟩⟩, hstep,
        hadv.rel, hadv.grown⟩
      exact settled_step hrel.1 trivial hadv (puts_step hstep) hrel.2 hp)
    hrun ⟨WorldRel.init hv, fun p hp => by cases hp⟩
  exact ⟨a, ha.1, recounts_of_traced (fun a => a) (fun hn => hn) (WorldRel.init hv) hpath, ha.2⟩

/-- What a request waits for is what it has proposed, and its node had applied as much in some state
when it succeeded. -/
def Awaited (S : Setup σ) (acts : List Action) (p : PutOp) : Prop :=
  (∀ i, p.phase = .waitApplied i → ∃ t, p.proposed = some (i, t)) ∧
    (p.phase = .ok → ∃ i t u, p.proposed = some (i, t) ∧ Passes S acts u ∧ u.up p.node = true ∧
      i ≤ (u.node p.node).lastApplied)

theorem Awaited.append (h : Awaited S acts p) (acts' : List Action) :
    Awaited S (acts ++ acts') p := by
  refine ⟨h.1, fun hok => ?_⟩
  obtain ⟨i, t, u, hprop, hpass, hrest⟩ := h.2 hok
  exact ⟨i, t, u, hprop, hpass.append, hrest⟩

theorem Awaited.move (h : Awaited S acts p) (hpass : Passes S acts w) (hmove : PutMove S w p p') :
    Awaited S acts p' := by
  cases hmove with
  | stays => exact h
  | begins => exact ⟨by simp, by simp⟩
  -- the result of `propose` is kept
  | @proposes i t =>
    refine ⟨fun j hj => ⟨t, ?_⟩, by simp⟩
    cases hj
    rfl
  | @succeeds i hphase hup happ =>
    refine ⟨by simp, fun _ => ?_⟩
    obtain ⟨t, hprop⟩ := h.1 i hphase
    exact ⟨i, t, w, hprop, hpass, hup, happ⟩
  | asks hrun hph => rcases hph with rfl | ⟨_, rfl⟩ | ⟨_, _, rfl⟩ <;> exact ⟨by simp, by simp⟩
  | forwards => exact ⟨by simp, by simp⟩
  | ends hrun hph => rcases hph with rfl | ⟨_, rfl⟩ <;> exact ⟨by simp, by simp⟩

/-- **Every request of a run.** -/
theorem awaited_of_run {ok : World σ → Action → Prop} (hrun : Run S ok (World.init S) acts w)
    (hp : p ∈ w.puts) : Awaited S acts p := by
  refine (hrun.invariant_along (I := fun acts w => Run S ok (World.init S) acts w ∧
    ∀ p ∈ w.puts, Awaited S acts p) (fun acts w act w' hinv hok hstep => ?_)
    ⟨.nil _, fun p hp => by cases hp⟩).2 p hp
  obtain ⟨hpast, hold⟩ := hinv
  refine ⟨hpast.append (.cons hok hstep (.nil _)), fun p' hp' => ?_⟩
  obtain ⟨k, hk⟩ := List.mem_iff_getElem?.mp hp'
  rcases (puts_step hstep).cases hk with ⟨p, hpk, hmove⟩ | ⟨_, hnew⟩
  · exact ((hold p (List.mem_of_getElem? hpk)).move (passes_of_run hpast) hmove).append _
  · cases hnew <;> exact ⟨by simp, by simp⟩

/-- The history of a run reaches the index of an acknowledged write. -/
theorem HistoryOf.reaches {H : List LogEntry} {i t : Int} {ok : World σ → Action → Prop}
    (hhist : HistoryOf S members acts H) (hrun : Run S ok (World.init S) acts w) (hp : p ∈ w.puts)
    (hok : p.phase = .ok) (hprop : p.proposed = some (i, t)) (h0 : 0 < i) :
    ∃ e, H[i.toNat - 1]? = some e := by
  -- the node had applied the index, so the history goes as far
  obtain ⟨i', t', u, hprop', hpass, hup, happ⟩ := (awaited_of_run hrun hp).2 hok
  rw [hprop] at hprop'
  cases hprop'
  have hf := hhist.follows u hpass p.node
  rw [revived_of_up hup] at hf
  have hcommit := hf.applied_le
  have hlen := hf.commit_le
  exact ⟨_, List.getElem?_eq_getElem (by omega)⟩

/-- **Acknowledged writes.** If nothing overwrites an entry that a client waits for, every
acknowledged write is the client's own, in the one history that stands behind the run. -/
theorem acknowledged_write (hS : Joinable S members) (hsub : Substantial S)
    (hlaw : Lawful S.machine)
    (hrun : Run S (fun w act => Careful members w act ∧ WritesKept w act) (World.init S) acts w) :
    ∃ H, HistoryOf S members acts H ∧ OwnWrites S H w := by
  obtain ⟨a, hw, hrec, htr⟩ := exists_tracked hS hsub hrun
  have hsafe := hw.good.inv.safe trivial
  obtain ⟨H, T, hH, hhist⟩ := exists_history (joinMode_valid hS hsub) hw.good trivial hlaw hrec
  refine ⟨H, hhist, fun p hp hok => ?_⟩
  obtain ⟨i, t, hprop, h0, T', l, hset, hget⟩ := (htr p hp).2 hok
  obtain ⟨e, he⟩ := hhist.reaches hrun hp hok hprop h0
  refine ⟨i, t, hprop, h0, ?_⟩
  rw [he, hH.getElem?_eq hset hw.good.inv hsafe he hget]
  rfl

/-! `n1` accepts a write, replicates it to `n2`, and applies it. -/

def written : List Action :=
  [.tick "n1" true, .go "n1" 0, .deliver 0, .reply 0,
    .startPut "n1" [0x6b] [7], .stepPut 0, .stepPut 0,
    .go "n1" 1, .deliver 1, .reply 1, .stepPut 0]

def openSample : Setup Unit := expandable idle threeNodes 0

theorem openSample_joinable : Joinable openSample threeNodes :=
  expandable_joinable idle 0 (by decide) (by decide)

theorem openSample_substantial : Substantial openSample := by
  intro m d hd
  cases hd
  decide

theorem acknowledged_write_sample :
    (∃ p ∈ (after openSample (World.init openSample) written).puts, p.phase = .ok) ∧
      ∃ H, HistoryOf openSample threeNodes written H ∧
        OwnWrites openSample H (after openSample (World.init openSample) written) :=
  ⟨by decide +kernel, acknowledged_write openSample_joinable openSample_substantial idle_lawful
    (run_checked (fun _ _ hg => ⟨careful_of_plain hg, writesKept_of_plain hg⟩)
      (g := plain threeNodes) (by decide +kernel) (by decide +kernel))⟩

end Cluster
