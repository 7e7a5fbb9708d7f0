import RaftStore.Lib.Disk
import RaftStore.Raft.Node

/-!
# `FileStorage`

The file operations of `raft/persist.go`: `Save` writes a temporary file, syncs it and renames it
over `state.json`; `Load` reads that file. The directory they are in is taken for granted:
`MkdirAll` may fail and has no effect otherwise. Of an error the callers only look at whether there
is one, so `Save` returns whether it succeeded.
-/

namespace Raft

open Files

/-- The files in the directory of a node. -/
inductive FileName
  | state
  | tmp
  deriving DecidableEq

/-- `json.Marshal` and `json.Unmarshal` for `DurableState`. -/
structure Codec where
  marshal : DurableState → Option Bytes
  unmarshal : Bytes → Option DurableState

/-- The state is read back as it was written. -/
def Codec.Reads (J : Codec) (st : DurableState) : Prop :=
  ∀ body, J.marshal st = some body → J.unmarshal body = some st

inductive LoadErr
  | read
  | corrupt
  deriving DecidableEq

namespace FileStorage

variable (J : Codec)

def mkdirAll : Proc FileName Bool := idle

def close : Proc FileName Bool := idle

/-- `Save`. After an error the temporary file is removed, if that is possible. -/
def save (st : DurableState) : Proc FileName Bool := do
  if !(← mkdirAll) then return false
  match J.marshal st with
  | none => return false
  | some body =>
    match ← openFile .tmp with
    | none => return false
    | some f =>
      if !(← write f body) then
        let _ ← close
        let _ ← remove .tmp
        return false
      if !(← sync f) then
        let _ ← close
        let _ ← remove .tmp
        return false
      if !(← close) then
        let _ ← remove .tmp
        return false
      if !(← rename .tmp .state) then
        let _ ← remove .tmp
        return false
      return true

/-- What `Load` makes of a file that can be read. A missing file is not an error. -/
def decode : Option Bytes → Except LoadErr DurableState
  | none => .ok {}
  | some body =>
    match J.unmarshal body with
    | none => .error .corrupt
    | some st => .ok st

def load : Proc FileName (Except LoadErr DurableState) := do
  if !(← idle) then return .error .read
  let d ← look
  return decode J (d.read .state)

end FileStorage

end Raft
