import Mathlib.Logic.Function.Basic
import Mathlib.Data.List.Basic

/-!
# Files that survive crashes

A disk holds inodes and a directory that maps names to them. A process works on it through system
calls, each of which may fail, and it may be killed during each of them (`Outcome`). What the
process has written is then still there.

A power failure is worse (`PowerFailure`): the contents of an inode that was not synced are lost,
and since nothing here syncs the directory, it may come back as it was at any time since the last
failure.

`Proc.Ensures c K Q d` says what a program `c` does to the disk `d` however its calls end: if it
returns `a` it leaves a disk in `Q a`, and if it is killed it leaves one in `K`. There is one rule
for each way to build a program (`ensures_pure`, `ensures_bind`, `ensures_call`, `ensures_look`).
-/

namespace Files

/-- How a system call ends. Of a write that fails or is cut short `written` bytes are on the disk;
another call that is cut short has had its effect unless `written` is zero. -/
inductive Outcome
  | ok
  | fail (written : Nat)
  | kill (written : Nat)
  deriving DecidableEq

/-- A file: its bytes, and whether all of them have reached the disk. -/
structure Inode where
  data : List UInt8
  synced : Bool
  deriving DecidableEq

/-- The file that a name stands for. -/
abbrev Dir (N : Type) := N → Option Nat

/-- `past` are the states of the directory since the last power failure. -/
structure Disk (N : Type) where
  inodes : List Inode
  dir : Dir N
  past : List (Dir N)

variable {N α β : Type}

/-- No files. -/
def Disk.empty : Disk N := ⟨[], fun _ => none, []⟩

namespace Disk

/-- All states of the directory that a power failure may bring back. -/
def dirs (d : Disk N) : List (Dir N) := d.dir :: d.past

/-- The directory changes. -/
def setDir (d : Disk N) (dir : Dir N) : Disk N := { d with dir := dir, past := d.dirs }

/-- A file is replaced. -/
def setInode (d : Disk N) (i : Nat) (x : Inode) : Disk N := { d with inodes := d.inodes.set i x }

variable [DecidableEq N]

/-- `O_CREATE | O_TRUNC`. -/
def create (d : Disk N) (name : N) : Disk N :=
  match d.dir name with
  | some i => d.setInode i ⟨[], false⟩
  | none =>
    let d' : Disk N := { d with inodes := d.inodes ++ [⟨[], false⟩] }
    d'.setDir (Function.update d.dir name (some d.inodes.length))

/-- Append to a file. -/
def append (d : Disk N) (i : Nat) (bytes : List UInt8) : Disk N :=
  match d.inodes[i]? with
  | some x => d.setInode i ⟨x.data ++ bytes, false⟩
  | none => d

/-- `fsync`: what has been written is on disk. -/
def sync (d : Disk N) (i : Nat) : Disk N :=
  match d.inodes[i]? with
  | some x => d.setInode i ⟨x.data, true⟩
  | none => d

/-- The name stands for nothing. -/
def remove (d : Disk N) (name : N) : Disk N := d.setDir (Function.update d.dir name none)

/-- The file under the new name is replaced in one step. -/
def rename (d : Disk N) (old new : N) : Disk N :=
  d.setDir (Function.update (Function.update d.dir new (d.dir old)) old none)

/-- The bytes of a file. -/
def read (d : Disk N) (name : N) : Option (List UInt8) :=
  (d.dir name).bind (fun i => d.inodes[i]?.map Inode.data)

end Disk

/-- **A power failure.** The directory is one of those since the last failure, and files keep what
was synced. -/
structure PowerFailure (d d' : Disk N) : Prop where
  dir : d'.dir ∈ d.dirs
  past : d'.past = []
  length : d'.inodes.length = d.inodes.length
  synced : ∀ (i : Nat) (x : Inode), d.inodes[i]? = some x → x.synced = true → d'.inodes[i]? = some x

/-! ## Programs -/

/-- A program: `none` if it is killed. The list are the outcomes of its calls; once it is used up
every call succeeds. -/
abbrev Proc (N α : Type) := OptionT (StateM (Disk N × List Outcome)) α

/-- A system call with its effect, and its effect when it fails or is cut short. -/
def call (ok : Disk N → Disk N) (failed killed : Nat → Disk N → Disk N) : Proc N Bool :=
  OptionT.mk fun (d, script) =>
    match script with
    | [] => (some true, (ok d, []))
    | .ok :: rest => (some true, (ok d, rest))
    | .fail n :: rest => (some false, (failed n d, rest))
    | .kill n :: rest => (none, (killed n d, rest))

/-- A call that takes effect as a whole or not at all. -/
def atomic (effect : Disk N → Disk N) : Proc N Bool :=
  call effect (fun _ d => d) (fun n d => if n = 0 then d else effect d)

/-- The disk as it is. -/
def look : Proc N (Disk N) := OptionT.mk fun (d, script) => (some d, (d, script))

section Calls

variable [DecidableEq N]

/-- Open a file for writing; returns its inode. -/
def openFile (name : N) : Proc N (Option Nat) := do
  if ← atomic (·.create name) then
    let d ← look
    return d.dir name
  else return none

/-- A write that fails or is cut short leaves a part of the bytes. -/
def write (i : Nat) (bytes : List UInt8) : Proc N Bool :=
  call (·.append i bytes) (fun n d => d.append i (bytes.take n))
    (fun n d => d.append i (bytes.take n))

/-- A sync happens or does not. -/
def sync (i : Nat) : Proc N Bool := atomic (·.sync i)

/-- A removal happens or does not. -/
def remove (name : N) : Proc N Bool := atomic (·.remove name)

/-- A rename happens or does not. -/
def rename (old new : N) : Proc N Bool := atomic (·.rename old new)

/-- A call that changes nothing that is modelled here. -/
def idle : Proc N Bool := atomic id

end Calls

/-! ## What a program ensures -/

/-- A program has ended: it has returned, or it was killed. -/
def Ends (K : Disk N → Prop) (Q : α → Disk N → Prop) : Option α × (Disk N × List Outcome) → Prop
  | (some a, (d, _)) => Q a d
  | (none, (d, _)) => K d

/-- Whatever the calls of `c` do: the disk is in `Q a` if `c` returns `a`, and in `K` if it is
killed. -/
def Ensures (c : Proc N α) (K : Disk N → Prop) (Q : α → Disk N → Prop) (d : Disk N) : Prop :=
  ∀ script, Ends K Q (c.run (d, script))

variable {K : Disk N → Prop} {Q Q' : α → Disk N → Prop} {d : Disk N}

theorem ensures_pure {a : α} (h : Q a d) : Ensures (pure a : Proc N α) K Q d := fun _ => h

/-- How two programs in a row run. -/
theorem run_bind (c : Proc N β) (f : β → Proc N α) (s : Disk N × List Outcome) :
    (c >>= f).run s =
      Option.elim (c.run s).1 (none, (c.run s).2) (fun b => (f b).run (c.run s).2) := by
  simp only [OptionT.run_bind, Option.elimM]
  show (StateT.run (c.run >>= _) s : Id _) = _
  rw [StateT.run_bind]
  show (StateT.run (Option.elim (c.run s).1 _ _) (c.run s).2 : Id _) = _
  cases (c.run s).1 with
  | none => rfl
  | some b => rfl

/-- **Programs in a row**: the second one ensures its postcondition from wherever the first one
ends. -/
theorem ensures_bind {c : Proc N β} {f : β → Proc N α}
    (h : Ensures c K (fun b d' => Ensures (f b) K Q d') d) : Ensures (c >>= f) K Q d := by
  intro script
  have hc := h script
  rw [run_bind]
  -- killed in the first program, or not
  rcases hrun : c.run (d, script) with ⟨_ | b, d', rest⟩
  · rw [hrun] at hc
    exact hc
  · rw [hrun] at hc
    exact hc rest

/-- A call that succeeds, fails or is killed. -/
theorem ensures_call {ok : Disk N → Disk N} {failed killed : Nat → Disk N → Disk N}
    {Q : Bool → Disk N → Prop} (hok : Q true (ok d)) (hfailed : ∀ n, Q false (failed n d))
    (hkilled : ∀ n, K (killed n d)) : Ensures (call ok failed killed) K Q d := by
  intro script
  cases script with
  | nil => exact hok
  | cons o rest =>
    cases o with
    | ok => exact hok
    | fail n => exact hfailed n
    | kill n => exact hkilled n

/-- A call that happens as a whole or not at all. -/
theorem ensures_atomic {effect : Disk N → Disk N} {Q : Bool → Disk N → Prop}
    (hok : Q true (effect d)) (hfailed : Q false d) (hbefore : K d) (hafter : K (effect d)) :
    Ensures (atomic effect) K Q d := by
  refine ensures_call hok (fun _ => hfailed) (fun n => ?_)
  show K (if n = 0 then d else effect d)
  split
  · exact hbefore
  · exact hafter

theorem ensures_idle {Q : Bool → Disk N → Prop} (hQ : ∀ b, Q b d) (hK : K d) :
    Ensures idle K Q d := ensures_atomic (hQ true) (hQ false) hK hK

theorem ensures_look {Q : Disk N → Disk N → Prop} (h : Q d d) : Ensures look K Q d := fun _ => h

/-- A file is opened, or nothing happens. -/
theorem ensures_openFile [DecidableEq N] {name : N} {Q : Option Nat → Disk N → Prop}
    (hok : Q ((d.create name).dir name) (d.create name)) (hfailed : Q none d) (hbefore : K d)
    (hafter : K (d.create name)) : Ensures (openFile name) K Q d := by
  refine ensures_bind (ensures_atomic ?_ ?_ hbefore hafter)
  · exact ensures_bind (ensures_look (ensures_pure hok))
  · exact ensures_pure hfailed

/-! ## Directories and inodes -/

section Effects

variable {i j : Nat} {x : Inode}

theorem inodes_setInode_self (hi : i < d.inodes.length) :
    (d.setInode i x).inodes[i]? = some x := List.getElem?_set_self hi

theorem inodes_setInode_ne (hij : j ≠ i) : (d.setInode i x).inodes[j]? = d.inodes[j]? :=
  List.getElem?_set_ne (Ne.symm hij)

theorem append_eq (h : d.inodes[i]? = some x) (bytes : List UInt8) :
    d.append i bytes = d.setInode i ⟨x.data ++ bytes, false⟩ := by
  unfold Disk.append
  rw [h]

theorem sync_eq (h : d.inodes[i]? = some x) : d.sync i = d.setInode i ⟨x.data, true⟩ := by
  unfold Disk.sync
  rw [h]

end Effects

end Files
