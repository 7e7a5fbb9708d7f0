import RaftStore.Lib.Path
import RaftStore.Raft.Persist

/-!
# What is on disk

`FileStorage` against the abstract `Storage` that the other results are about. A `Save` may fail in
each of its system calls, and the process may be killed in each of them:

* the file always holds a state that was saved as a whole, so `Load` never finds a corrupt one
  (`file_storage_refines`);
* a `Save` that returns `nil` has pushed its state, one that returns an error has left the storage
  alone, and one that was cut short has done one or the other. This is what `Storage.save` does, and
  what the cluster does to the storage of a process that crashes.

A power failure is another matter. `Save` syncs the file but not the directory it renames the file
in. So a power failure may undo saves that had returned `nil`: any number of those since the last
power failure, and nothing else (`power_failure_undoes`).
-/

namespace Raft

open Files

variable {J : Codec} {d d' : Disk FileName} {p : Dir FileName} {saved : List DurableState}
  {fresh f : Nat} {st : DurableState} {x : Inode} {body : Bytes}

/-! ## The disk and the storage -/

/-- The directory `p` has the latest of the states in `state.json`. -/
def Keeps (J : Codec) (d : Disk FileName) (p : Dir FileName) : List DurableState → Prop
  | [] => p .state = none
  | st :: _ => ∃ i body, p .state = some i ∧ d.inodes[i]? = some ⟨body, true⟩ ∧
      J.unmarshal body = some st

/-- **The disk holds the saved states**: the directory has the latest of them, and those it had
since the last power failure go back by up to `fresh` states. -/
structure Holds (J : Codec) (saved : List DurableState) (fresh : Nat) (d : Disk FileName) :
    Prop where
  current : Keeps J d d.dir saved
  earlier : ∀ p ∈ d.dirs, ∃ k ≤ fresh, Keeps J d p (saved.drop k)
  kept : ∀ k ≤ fresh, ∃ p ∈ d.dirs, Keeps J d p (saved.drop k)
  apart : ∀ i, d.dir .tmp = some i → ∀ p ∈ d.dirs, p .state ≠ some i
  own : ∀ p ∈ d.dirs, ∀ i, p .tmp = some i → p .state ≠ some i
  bounded : ∀ p ∈ d.dirs, ∀ name i, p name = some i → i < d.inodes.length

theorem holds_empty (J : Codec) : Holds J [] 0 Disk.empty where
  current := rfl
  earlier := by
    intro p hp
    rw [List.mem_singleton.mp hp]
    exact ⟨0, le_rfl, rfl⟩
  kept := by
    intro k hk
    exact ⟨_, List.mem_cons_self, by rw [List.drop_nil]; rfl⟩
  apart := by
    intro i hi
    cases hi
  own := by
    intro p hp i hi
    rw [List.mem_singleton.mp hp] at hi
    cases hi
  bounded := by
    intro p hp name i hi
    rw [List.mem_singleton.mp hp] at hi
    cases hi

/-! ## Inodes -/

/-- What is read is decoded to the latest state. -/
theorem Keeps.decode (h : Keeps J d d.dir saved) :
    FileStorage.decode J (d.read .state) = .ok (Storage.load ⟨saved, []⟩) := by
  unfold Disk.read
  cases saved with
  | nil =>
    rw [show d.dir .state = none from h]
    rfl
  | cons st rest =>
    obtain ⟨i, body, hi, hx, hst⟩ := h
    rw [hi, Option.bind_some, hx]
    show FileStorage.decode J (some body) = _
    simp only [FileStorage.decode, hst]
    rfl

theorem Keeps.inodes {l : List DurableState} (h : Keeps J d p l)
    (heq : ∀ i, p .state = some i → d'.inodes[i]? = d.inodes[i]?) : Keeps J d' p l := by
  cases l with
  | nil => exact h
  | cons st rest =>
    obtain ⟨i, body, hi, hx, hst⟩ := h
    exact ⟨i, body, hi, (heq i hi).trans hx, hst⟩

/-- **Frame rule**: inodes change that no directory has as `state.json`. -/
theorem Holds.inodes (h : Holds J saved fresh d) (hdir : d'.dir = d.dir) (hpast : d'.past = d.past)
    (hlen : d.inodes.length ≤ d'.inodes.length)
    (heq : ∀ p ∈ d.dirs, ∀ i, p .state = some i → d'.inodes[i]? = d.inodes[i]?) :
    Holds J saved fresh d' := by
  have hdirs : d'.dirs = d.dirs := by
    unfold Disk.dirs
    rw [hdir, hpast]
  refine ⟨?_, ?_, ?_, ?_, ?_, ?_⟩
  · rw [hdir]
    exact h.current.inodes (heq _ List.mem_cons_self)
  · intro p hp
    rw [hdirs] at hp
    obtain ⟨k, hk, hkeeps⟩ := h.earlier p hp
    exact ⟨k, hk, hkeeps.inodes (heq p hp)⟩
  · intro k hk
    obtain ⟨p, hp, hkeeps⟩ := h.kept k hk
    exact ⟨p, hdirs ▸ hp, hkeeps.inodes (heq p hp)⟩
  · rw [hdir, hdirs]
    exact h.apart
  · rw [hdirs]
    exact h.own
  · rw [hdirs]
    exact fun p hp name i hi => (h.bounded p hp name i hi).trans_le hlen

/-- The temporary file is written. -/
theorem Holds.setInode (h : Holds J saved fresh d) (hf : d.dir .tmp = some f) :
    Holds J saved fresh (d.setInode f x) := by
  refine h.inodes rfl rfl (le_of_eq List.length_set.symm) (fun p hp i hi => ?_)
  refine inodes_setInode_ne (fun heq => ?_)
  exact h.apart f hf p hp (heq ▸ hi)

/-! ## Directories -/

/-- The directory changes, but not in `state.json`. -/
theorem Holds.setDir (h : Holds J saved fresh d) (hstate : p .state = d.dir .state)
    (hapart : ∀ i, p .tmp = some i → i < d.inodes.length ∧ ∀ q ∈ d.dirs, q .state ≠ some i) :
    Holds J saved fresh (d.setDir p) := by
  have hsame : ∀ {q : Dir FileName} {l : List DurableState}, Keeps J d q l →
      Keeps J (d.setDir p) q l := fun hq => hq.inodes (fun _ _ => rfl)
  have hp : Keeps J d p saved := by
    have hcur := h.current
    cases saved with
    | nil => exact hstate.trans hcur
    | cons st rest =>
      obtain ⟨i, body, hi, hx, hst⟩ := hcur
      exact ⟨i, body, hstate.trans hi, hx, hst⟩
  refine ⟨hsame hp, ?_, ?_, ?_, ?_, ?_⟩
  · intro q hq
    rcases List.mem_cons.mp hq with rfl | hq
    · exact ⟨0, Nat.zero_le _, hsame hp⟩
    · obtain ⟨k, hk, hkeeps⟩ := h.earlier q hq
      exact ⟨k, hk, hsame hkeeps⟩
  · intro k hk
    obtain ⟨q, hq, hkeeps⟩ := h.kept k hk
    exact ⟨q, List.mem_cons_of_mem _ hq, hsame hkeeps⟩
  · intro i hi q hq
    rcases List.mem_cons.mp hq with rfl | hq
    · rw [hstate]
      exact (hapart i hi).2 _ List.mem_cons_self
    · exact (hapart i hi).2 q hq
  · intro q hq i hi
    rcases List.mem_cons.mp hq with rfl | hq
    · rw [hstate]
      exact (hapart i hi).2 _ List.mem_cons_self
    · exact h.own q hq i hi
  · intro q hq name i hi
    rcases List.mem_cons.mp hq with rfl | hq
    · cases name with
      | state => exact h.bounded _ List.mem_cons_self .state i (hstate ▸ hi)
      | tmp => exact (hapart i hi).1
    · exact h.bounded q hq name i hi

theorem Holds.remove (h : Holds J saved fresh d) : Holds J saved fresh (d.remove .tmp) := by
  refine h.setDir ?_ (fun i hi => ?_)
  · exact Function.update_of_ne (by decide) _ _
  · rw [Function.update_self] at hi
    cases hi

/-- The temporary file is opened: it is empty, and it is not the state of any directory. -/
theorem Holds.create (h : Holds J saved fresh d) : Holds J saved fresh (d.create .tmp) ∧
    ∃ f, (d.create .tmp).dir .tmp = some f ∧ (d.create .tmp).inodes[f]? = some ⟨[], false⟩ := by
  unfold Disk.create
  cases htmp : d.dir .tmp with
  | some f =>
    refine ⟨h.setInode htmp, f, htmp, ?_⟩
    exact inodes_setInode_self (h.bounded _ List.mem_cons_self _ _ htmp)
  | none =>
    have hgrown : Holds J saved fresh { d with inodes := d.inodes ++ [⟨[], false⟩] } :=
      h.inodes rfl rfl (by simp) (fun p hp i hi =>
        List.getElem?_append_left (h.bounded p hp .state i hi))
    refine ⟨hgrown.setDir (Function.update_of_ne (by decide) _ _) (fun i hi => ?_),
      d.inodes.length, ?_, ?_⟩
    · rw [Function.update_self, Option.some.injEq] at hi
      subst hi
      refine ⟨by simp, fun q hq hi => ?_⟩
      exact lt_irrefl _ (h.bounded q hq .state _ hi)
    · show Function.update d.dir .tmp (some d.inodes.length) .tmp = _
      rw [Function.update_self]
    · show (d.inodes ++ [⟨[], false⟩])[d.inodes.length]? = _
      simp

/-- **The rename**: the state that was written is now the latest. -/
theorem Holds.rename (h : Holds J saved fresh d) (hf : d.dir .tmp = some f)
    (hx : d.inodes[f]? = some ⟨body, true⟩) (hst : J.unmarshal body = some st) :
    Holds J (st :: saved) (fresh + 1) (d.rename .tmp .state) := by
  have hstate : (d.rename .tmp .state).dir .state = some f := by
    show Function.update (Function.update d.dir .state (d.dir .tmp)) .tmp none .state = _
    rw [Function.update_of_ne (by decide), Function.update_self, hf]
  have htmp : (d.rename .tmp .state).dir .tmp = none := by
    show Function.update (Function.update d.dir .state (d.dir .tmp)) .tmp none .tmp = _
    rw [Function.update_self]
  have hold : ∀ {q : Dir FileName} {l : List DurableState}, Keeps J d q l →
      Keeps J (d.rename .tmp .state) q l := fun hq => hq.inodes (fun _ _ => rfl)
  have hnew : Keeps J (d.rename .tmp .state) (d.rename .tmp .state).dir (st :: saved) :=
    ⟨f, body, hstate, hx, hst⟩
  refine ⟨hnew, ?_, ?_, ?_, ?_, ?_⟩
  · intro q hq
    rcases List.mem_cons.mp hq with rfl | hq
    · exact ⟨0, Nat.zero_le _, hnew⟩
    · obtain ⟨k, hk, hkeeps⟩ := h.earlier q hq
      exact ⟨k + 1, Nat.succ_le_succ hk, hold hkeeps⟩
  · intro k hk
    cases k with
    | zero => exact ⟨_, List.mem_cons_self, hnew⟩
    | succ k =>
      obtain ⟨q, hq, hkeeps⟩ := h.kept k (Nat.le_of_succ_le_succ hk)
      exact ⟨q, List.mem_cons_of_mem _ hq, hold hkeeps⟩
  · intro i hi
    rw [htmp] at hi
    cases hi
  · intro q hq i hi
    rcases List.mem_cons.mp hq with rfl | hq
    · rw [htmp] at hi
      cases hi
    · exact h.own q hq i hi
  · intro q hq name i hi
    rcases List.mem_cons.mp hq with rfl | hq
    · cases name with
      | state =>
        rw [hstate, Option.some.injEq] at hi
        exact hi ▸ h.bounded _ List.mem_cons_self .tmp f hf
      | tmp =>
        rw [htmp] at hi
        cases hi
    · exact h.bounded q hq name i hi

/-! ## `Save` and `Load` -/

/-- A `Save` that is killed has or has not replaced the file. -/
def Cut (J : Codec) (saved : List DurableState) (fresh : Nat) (st : DurableState)
    (d : Disk FileName) : Prop :=
  Holds J saved fresh d ∨ Holds J (st :: saved) (fresh + 1) d

/-- The states after a `Save` that has returned. -/
def Returned (J : Codec) (saved : List DurableState) (fresh : Nat) (st : DurableState) (ok : Bool)
    (d : Disk FileName) : Prop :=
  Holds J (Storage.save ⟨saved, [ok]⟩ st).saved (fresh + ok.toNat) d

/-- The temporary file is given up. -/
theorem ensures_discard (h : Holds J saved fresh d) :
    Ensures (do let _ ← remove .tmp; return false) (Cut J saved fresh st)
      (Returned J saved fresh st) d := by
  refine ensures_bind (ensures_atomic ?_ ?_ (Or.inl h) (Or.inl h.remove))
  · exact ensures_pure h.remove
  · exact ensures_pure h

/-- **What `Save` does**, however its calls end. -/
theorem ensures_save (hst : J.Reads st) (h : Holds J saved fresh d) :
    Ensures (FileStorage.save J st) (Cut J saved fresh st) (Returned J saved fresh st) d := by
  unfold FileStorage.save
  refine ensures_bind (ensures_idle (fun b => ?_) (Or.inl h))
  cases b with
  | false => exact ensures_pure h
  | true =>
  cases hbody : J.marshal st with
  | none => exact ensures_pure h
  | some body =>
  obtain ⟨hc, f, hf, hx⟩ := h.create
  refine ensures_bind (ensures_openFile ?_ (ensures_pure h) (Or.inl h) (Or.inl hc))
  rw [hf]
  -- the file is written, in part or as a whole
  have hwrite : ∀ bytes, (d.create .tmp).append f bytes = _ := append_eq hx
  have hcut : ∀ bytes, Holds J saved fresh ((d.create .tmp).append f bytes) := fun bytes => by
    rw [hwrite]
    exact hc.setInode hf
  have hlen : f < (d.create .tmp).inodes.length := (List.getElem?_eq_some_iff.mp hx).1
  refine ensures_bind (ensures_call ?_ (fun n => ?_) (fun n => Or.inl (hcut _)))
  rotate_left
  · refine ensures_bind (ensures_idle (fun _ => ?_) (Or.inl (hcut _)))
    exact ensures_discard (hcut _)
  have hw := hcut body
  have hfw : ((d.create .tmp).append f body).dir .tmp = some f := by
    rw [hwrite]
    exact hf
  have hxw : ((d.create .tmp).append f body).inodes[f]? = some ⟨body, false⟩ := by
    rw [hwrite]
    exact inodes_setInode_self hlen
  generalize (d.create .tmp).append f body = dw at hw hfw hxw
  -- and synced
  have hs : Holds J saved fresh (dw.sync f) := by
    rw [sync_eq hxw]
    exact hw.setInode hfw
  refine ensures_bind (ensures_atomic ?_ ?_ (Or.inl hw) (Or.inl hs))
  rotate_left
  · refine ensures_bind (ensures_idle (fun _ => ?_) (Or.inl hw))
    exact ensures_discard hw
  have hfs : (dw.sync f).dir .tmp = some f := by
    rw [sync_eq hxw]
    exact hfw
  have hxs : (dw.sync f).inodes[f]? = some ⟨body, true⟩ := by
    rw [sync_eq hxw]
    exact inodes_setInode_self (List.getElem?_eq_some_iff.mp hxw).1
  refine ensures_bind (ensures_idle (fun b => ?_) (Or.inl hs))
  cases b with
  | false => exact ensures_discard hs
  | true =>
  have hr := hs.rename hfs hxs (hst body hbody)
  refine ensures_bind (ensures_atomic ?_ ?_ (Or.inl hs) (Or.inr hr))
  · exact ensures_pure hr
  · exact ensures_discard hs

/-- `Load` changes nothing and returns the latest state, unless the file cannot be read. -/
theorem ensures_load (h : Holds J saved fresh d) :
    Ensures (FileStorage.load J) (fun d' => d' = d)
      (fun r d' => d' = d ∧ (r = .error .read ∨ r = .ok (Storage.load ⟨saved, []⟩))) d := by
  unfold FileStorage.load
  refine ensures_bind (ensures_idle (fun b => ?_) rfl)
  cases b with
  | false => exact ensures_pure ⟨rfl, Or.inl rfl⟩
  | true =>
    refine ensures_bind (ensures_look (ensures_pure ⟨rfl, Or.inr ?_⟩))
    exact h.current.decode

/-! ## Power failures -/

theorem Holds.powerFailure (h : Holds J saved fresh d) (hfail : PowerFailure d d') :
    ∃ k ≤ fresh, Holds J (saved.drop k) 0 d' := by
  obtain ⟨k, hk, hkeeps⟩ := h.earlier _ hfail.dir
  have hdirs : d'.dirs = [d'.dir] := by
    unfold Disk.dirs
    rw [hfail.past]
  have hnow : Keeps J d' d'.dir (saved.drop k) := by
    cases hdrop : saved.drop k with
    | nil =>
      rw [hdrop] at hkeeps
      exact hkeeps
    | cons st rest =>
      rw [hdrop] at hkeeps
      obtain ⟨i, body, hi, hx, hst⟩ := hkeeps
      exact ⟨i, body, hi, hfail.synced i _ hx rfl, hst⟩
  refine ⟨k, hk, hnow, ?_, ?_, ?_, ?_, ?_⟩
  · intro q hq
    rw [hdirs, List.mem_singleton] at hq
    exact ⟨0, le_rfl, hq ▸ hnow⟩
  · intro j hj
    rw [Nat.le_zero.mp hj]
    exact ⟨d'.dir, List.mem_cons_self, hnow⟩
  · intro i hi q hq
    rw [hdirs, List.mem_singleton] at hq
    rw [hq]
    exact h.own _ hfail.dir i hi
  · intro q hq i hi
    rw [hdirs, List.mem_singleton] at hq
    rw [hq] at hi ⊢
    exact h.own _ hfail.dir i hi
  · intro q hq name i hi
    rw [hdirs, List.mem_singleton] at hq
    rw [hq] at hi
    rw [hfail.length]
    exact h.bounded _ hfail.dir name i hi

/-- Every one of the directories may come back. -/
theorem Holds.exists_powerFailure (h : Holds J saved fresh d) {k : Nat} (hk : k ≤ fresh) :
    ∃ d', PowerFailure d d' ∧ Keeps J d' d'.dir (saved.drop k) := by
  obtain ⟨p, hp, hkeeps⟩ := h.kept k hk
  exact ⟨⟨d.inodes, p, []⟩, ⟨hp, rfl, rfl, fun _ _ hx _ => hx⟩, hkeeps.inodes (fun _ _ => rfl)⟩

/-! ## Runs -/

/-- What may happen to the directory of a node. -/
inductive DiskOp
  | returned (st : DurableState) (ok : Bool)
  | killed (st : DurableState)
  | powerFailure

/-- One `Save` with the outcomes of its calls, or a power failure. What is saved can be read back.
-/
inductive DiskStep (J : Codec) (d : Disk FileName) : DiskOp → Disk FileName → Prop
  | returned {st : DurableState} (script : List Outcome) {rest : List Outcome} {ok : Bool}
      {d' : Disk FileName} (hst : J.Reads st)
      (h : (FileStorage.save J st).run (d, script) = (some ok, (d', rest))) :
      DiskStep J d (.returned st ok) d'
  | killed {st : DurableState} (script : List Outcome) {rest : List Outcome} {d' : Disk FileName}
      (hst : J.Reads st) (h : (FileStorage.save J st).run (d, script) = (none, (d', rest))) :
      DiskStep J d (.killed st) d'
  | powerFailure {d' : Disk FileName} (h : PowerFailure d d') : DiskStep J d .powerFailure d'

/-- The same for the saved states, with the number of saves since the last power failure. -/
inductive StorageStep : List DurableState × Nat → DiskOp → List DurableState × Nat → Prop
  | returned (saved : List DurableState) (fresh : Nat) (st : DurableState) (ok : Bool) :
      StorageStep (saved, fresh) (.returned st ok)
        ((Storage.save ⟨saved, [ok]⟩ st).saved, fresh + ok.toNat)
  | killed (saved : List DurableState) (fresh : Nat) (st : DurableState) (ok : Bool) :
      StorageStep (saved, fresh) (.killed st)
        ((Storage.save ⟨saved, [ok]⟩ st).saved, fresh + ok.toNat)
  | powerFailure {saved : List DurableState} {fresh k : Nat} (hk : k ≤ fresh) :
      StorageStep (saved, fresh) .powerFailure (saved.drop k, 0)

theorem holds_step {op : DiskOp} {c : List DurableState × Nat} (h : Holds J c.1 c.2 d)
    (hstep : DiskStep J d op d') : ∃ c', StorageStep c op c' ∧ Holds J c'.1 c'.2 d' := by
  obtain ⟨saved, fresh⟩ := c
  cases hstep with
  | @returned st script _ ok _ hst hrun =>
    have hend := ensures_save hst h script
    rw [hrun] at hend
    exact ⟨_, .returned saved fresh st ok, hend⟩
  | @killed st script _ _ hst hrun =>
    have hend := ensures_save hst h script
    rw [hrun] at hend
    rcases hend with hold | hnew
    · exact ⟨_, .killed saved fresh st false, hold⟩
    · exact ⟨_, .killed saved fresh st true, hnew⟩
  | powerFailure hfail =>
    obtain ⟨k, hk, hholds⟩ := h.powerFailure hfail
    exact ⟨_, .powerFailure hk, hholds⟩

theorem holds_run {ops : List DiskOp} (hrun : RelPath (DiskStep J) Disk.empty ops d) :
    ∃ c, RelPath StorageStep ([], 0) ops c ∧ Holds J c.1 c.2 d := by
  refine RelPath.simulate (T := DiskStep J)
    (R := fun d (c : List DurableState × Nat) => Holds J c.1 c.2 d) ?_ hrun (holds_empty J)
  intro d op d' c h hstep
  exact holds_step h hstep

/-- **`FileStorage` is a `Storage`.** Whatever happens to the calls of `Save`, and wherever it is
cut short, the files go with a run of the storage, and `Load` returns the latest state of that. -/
theorem file_storage_refines {ops : List DiskOp}
    (hrun : RelPath (DiskStep J) Disk.empty ops d) :
    ∃ saved fresh, RelPath StorageStep ([], 0) ops (saved, fresh) ∧
      Ensures (FileStorage.load J) (fun d' => d' = d)
        (fun r d' => d' = d ∧ (r = .error .read ∨ r = .ok (Storage.load ⟨saved, []⟩))) d := by
  obtain ⟨⟨saved, fresh⟩, hpath, hholds⟩ := holds_run hrun
  exact ⟨saved, fresh, hpath, ensures_load hholds⟩

/-- **What a power failure undoes**: any number of the saves since the last one, also such that have
returned `nil`. Nothing else is found afterwards. -/
theorem power_failure_undoes {ops : List DiskOp}
    (hrun : RelPath (DiskStep J) Disk.empty ops d) :
    ∃ saved fresh, RelPath StorageStep ([], 0) ops (saved, fresh) ∧ ∀ r,
      (∃ d', PowerFailure d d' ∧ FileStorage.decode J (d'.read .state) = r) ↔
        ∃ k ≤ fresh, r = .ok (Storage.load ⟨saved.drop k, []⟩) := by
  obtain ⟨⟨saved, fresh⟩, hpath, hholds⟩ := holds_run hrun
  refine ⟨saved, fresh, hpath, fun r => ⟨?_, ?_⟩⟩
  · rintro ⟨d', hfail, rfl⟩
    obtain ⟨k, hk, h'⟩ := hholds.powerFailure hfail
    exact ⟨k, hk, h'.current.decode⟩
  · rintro ⟨k, hk, rfl⟩
    obtain ⟨d', hfail, hkeeps⟩ := hholds.exists_powerFailure hk
    exact ⟨d', hfail, hkeeps.decode⟩

/-! ## An instance

A second `Save` is killed while it writes, and a third one succeeds. -/

def firstState : DurableState := { currentTerm := 1, votedFor := "n1" }

def secondState : DurableState := { currentTerm := 2, votedFor := "n2" }

def twoStates : Codec where
  marshal := fun st =>
    if st = firstState then some [1] else if st = secondState then some [2, 2] else none
  unmarshal := fun body =>
    if body = [1] then some firstState else if body = [2, 2] then some secondState else none

theorem twoStates_reads : twoStates.Reads firstState ∧ twoStates.Reads secondState := by
  constructor
  · rintro body ⟨⟩
    rfl
  · rintro body ⟨⟩
    rfl

def savedTwice : List DiskOp :=
  [.returned firstState true, .killed secondState, .returned secondState true]

theorem savedTwice_run : ∃ d, RelPath (DiskStep twoStates) Disk.empty savedTwice d :=
  ⟨_, .cons (.returned [] twoStates_reads.1 rfl)
    (.cons (.killed [.ok, .ok, .kill 1] twoStates_reads.2 rfl)
      (.cons (.returned [] twoStates_reads.2 rfl) (.nil _)))⟩

theorem file_storage_refines_sample : ∃ d, RelPath (DiskStep twoStates) Disk.empty savedTwice d ∧
    ∃ saved fresh, RelPath StorageStep ([], 0) savedTwice (saved, fresh) ∧
      Ensures (FileStorage.load twoStates) (fun d' => d' = d)
        (fun r d' => d' = d ∧ (r = .error .read ∨ r = .ok (Storage.load ⟨saved, []⟩))) d := by
  obtain ⟨d, hrun⟩ := savedTwice_run
  exact ⟨d, hrun, file_storage_refines hrun⟩

theorem power_failure_undoes_sample : ∃ d, RelPath (DiskStep twoStates) Disk.empty savedTwice d ∧
    ∃ saved fresh, RelPath StorageStep ([], 0) savedTwice (saved, fresh) ∧ ∀ r,
      (∃ d', PowerFailure d d' ∧ FileStorage.decode twoStates (d'.read .state) = r) ↔
        ∃ k ≤ fresh, r = .ok (Storage.load ⟨saved.drop k, []⟩) := by
  obtain ⟨d, hrun⟩ := savedTwice_run
  exact ⟨d, hrun, power_failure_undoes hrun⟩

end Raft
