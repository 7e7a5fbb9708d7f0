import RaftStore.Raft.Types

/-!
# The log slice

`n.log` is never empty: its first element is a dummy that carries the index and the term
of the last entry covered by the snapshot (both `0` before the first compaction), and the
real entries follow. The type says so: a `Log` is a head and a tail, so that `log[0]`,
`log[len(log)-1]` and `log[1:]` exist for every value of it.

The accessors are those of `raft/log.go`; they map a Raft index onto the slice by
subtracting the index of the dummy.
-/

namespace Raft

/-- `n.log`: the dummy and the entries after it. -/
structure Log where
  head : LogEntry
  tail : List LogEntry
  deriving DecidableEq

namespace Log

/-- The slice. -/
def toList (l : Log) : List LogEntry := l.head :: l.tail

/-- `log[len(log)-1]`. -/
def last (l : Log) : LogEntry := l.tail.getLastD l.head

def lastLogIndexLocked (l : Log) : Int := l.last.index

def lastLogTermLocked (l : Log) : Int := l.last.term

def lastIncludedIndexLocked (l : Log) : Int := l.head.index

def lastIncludedTermLocked (l : Log) : Int := l.head.term

/-- The position of a Raft index in the slice: negative when it was compacted away, at
least the length when it has not been appended yet. -/
def sliceIndexLocked (l : Log) (raftIndex : Int) : Int := raftIndex - l.head.index

def entryAtLocked (l : Log) (raftIndex : Int) : Option LogEntry :=
  let si := l.sliceIndexLocked raftIndex
  if si < 0 ∨ si ≥ l.toList.length then none else l.toList[si.toNat]?

def termAtLocked (l : Log) (raftIndex : Int) : Option Int :=
  (l.entryAtLocked raftIndex).map (·.term)

/-- `append(n.log, entries...)`. -/
def append (l : Log) (entries : List LogEntry) : Log :=
  { l with tail := l.tail ++ entries }

/-- `n.log[:si]` for `si ≥ 1`. -/
def truncate (l : Log) (si : Int) : Log :=
  { l with tail := l.tail.take (si - 1).toNat }

/-- `n.log[si:]`. -/
def slice (l : Log) (si : Int) : List LogEntry := l.toList.drop si.toNat

/-- `appendEntriesLocked`: copies of the entries, renumbered from `startIndex`. -/
def appendEntriesLocked (l : Log) : List LogEntry → Int → Log
  | [], _ => l
  | e :: rest, startIndex =>
    appendEntriesLocked
      (l.append [{ term := e.term, index := startIndex, command := e.command, change := e.change }])
      rest (startIndex + 1)

/-- The loop of `HandleAppendEntries` over the entries of a request, `idx` being the index
of the first of them. Returns the new log and `logDirty`. -/
def mergeEntries (l : Log) : List LogEntry → Int → Log × Bool
  | [], _ => (l, false)
  | e :: rest, idx =>
    match l.entryAtLocked idx with
    | some existing =>
      if existing.term ≠ e.term then
        -- the suffix conflicts; the dummy itself is never cut off
        let si := l.sliceIndexLocked idx
        let si := if si < 1 then 1 else si
        ((l.truncate si).appendEntriesLocked (e :: rest) idx, true)
      else mergeEntries l rest (idx + 1)
    | none => (l.appendEntriesLocked (e :: rest) idx, true)

end Log

end Raft
