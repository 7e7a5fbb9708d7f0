import RaftStore.Results.Writes

/-!
# Durability

A node takes an entry to be committed when a majority has acknowledged it, and everyone saves
before it acknowledges. From then on a majority of the members holds the entry, in every later
state and whatever crashes: a process that runs holds it in its log or has it in the snapshot
it keeps, and one that is down finds it in its storage when it starts again (`committed_durable`).
-/

namespace Cluster

open Raft Refine Consensus

variable {σ : Type}

/-- A majority of the members has `l`, in processes that run or in storage, where `H` is the history
of the run. -/
def Held (S : Setup σ) (members : AddrMap) (H : List LogEntry) (w : World σ) (l : List LogEntry) :
    Prop :=
  ∃ Q : Finset String, Majority Q members.keys.toFinset ∧
    ∀ q ∈ Q, l <+: (w.revived S q).history H

end Cluster

namespace Refine

open Raft Consensus Cluster

variable {σ : Type} {X : Mode σ} {a : Chron} {w : World σ} {l : List LogEntry}

/-- Where nobody joins, the configuration of every log is the initial one. -/
theorem Good.conf_eq (hg : Good X a) (hj : ¬ X.joiners) (hch : Chained (scheme X.members) a l) :
    (scheme X.members).conf l = X.members.keys.toFinset := by
  show (peersAfter X.members l).keys.toFinset = _
  rw [peersAfter_of_none (hg.static_of_chained hj hch)]

/-- All members are a majority of the members. -/
theorem Mode.Valid.majority_members (hv : X.Valid) :
    Majority X.members.keys.toFinset X.members.keys.toFinset := by
  obtain ⟨id, hid⟩ := List.exists_mem_of_ne_nil _ (OrdMap.keys_ne_nil hv.members_ne)
  have hpos : 0 < X.members.keys.toFinset.card :=
    Finset.card_pos.mpr ⟨id, List.mem_toFinset.mpr hid⟩
  exact ⟨Finset.Subset.refl _, by omega⟩

/-- What is settled is held by a majority. -/
theorem WorldRel.held (h : WorldRel X a w) (hv : X.Valid) (hs : X.strict) (hj : ¬ X.joiners)
    {H : List LogEntry} (hlog : ∀ id, (w.revived X.setup id).history H = a.log id) {T : Int}
    (hl : Settled a T l) : Held X.setup X.members H w l := by
  by_cases hne : l = []
  · subst hne
    exact ⟨_, hv.majority_members, fun q _ => List.nil_prefix⟩
  · obtain ⟨T', L, Q, hQ, hheld⟩ := hl.held h.good.inv (h.good.inv.safe hs) hne
    rw [h.good.conf_eq hj ((h.good.inv.chained_reign T').of_isPrefix (List.take_prefix _ _))] at hQ
    exact ⟨Q, hQ, fun q hq => hlog q ▸ hheld q hq⟩

end Refine

namespace Cluster

open Raft Refine Consensus

variable {σ : Type} {S : Setup σ} {members : AddrMap} {v w : World σ} {acts acts' : List Action}
  {id : String}

/-- **Durability.** What a node takes to be committed is held by a majority of the members in
every later state, crashed or not. -/
theorem committed_durable (hS : Fixed S members) (hsub : Substantial S) (hlaw : Lawful S.machine)
    (hrun : Run S (fun w act => NoChange w act ∧ KeepsLogs w act) (World.init S) acts v)
    (hrun' : Run S (fun w act => NoChange w act ∧ KeepsLogs w act) v acts' w) :
    ∃ H, HistoryOf S members (acts ++ acts') H ∧
      ∀ id, Held S members H w (H.take (v.revived S id).commitIndex.toNat) := by
  obtain ⟨a, H, T, hw, _, hH, hhist⟩ := compacted_history hS hsub hlaw (hrun.append hrun')
  refine ⟨H, hhist, fun id => ?_⟩
  exact hw.held (fixedMode_valid hS (fun hc => absurd trivial hc) (fun _ _ => hsub)) trivial
    (fun hj => hj) (hw.history_eq trivial (Extends.refl a) hw.good hH hhist
      (passes_of_run (hrun.append hrun'))) (hH.of_isPrefix (List.take_prefix _ _))

/-! `n1` has committed its first entry with `n2`; then all three crash. -/

def allCrash : List Action := [.crash "n1", .crash "n2", .crash "n3"]

theorem committed_durable_sample : (sampleWorld.node "n1").commitIndex = 1 ∧
    ∃ H, HistoryOf sample threeNodes (firstCommit ++ allCrash) H ∧
      ∀ id, Held sample threeNodes H (after sample sampleWorld allCrash)
        (H.take (sampleWorld.revived sample id).commitIndex.toNat) :=
  ⟨by decide +kernel, committed_durable sample_fixed openSample_substantial idle_lawful
    (run_checked (fun _ _ hg => ⟨noChange_of_calm hg, keepsLogs_of_calm hg⟩) (g := calm)
      (by decide +kernel) (by decide +kernel))
    (run_checked (fun _ _ hg => ⟨noChange_of_calm hg, keepsLogs_of_calm hg⟩) (g := calm)
      (by decide +kernel) (by decide +kernel))⟩

end Cluster
