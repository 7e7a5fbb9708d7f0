import RaftStore.Lib.Slice
import RaftStore.Lib.Path
import RaftStore.Raft.Compaction
import RaftStore.Raft.Wire

/-!
# The log as a slice of 64-bit indexes

The functions of `raft/log.go` and `raft/snapshot.go` on the slice itself: a list that could be
empty, index and slice expressions that could be out of range, and arithmetic of 64-bit integers.
`Raw.step` is one update of the slice by the code.

* `Raw.step_total`: whatever the arguments, no expression is out of range, and the slice is not
  empty afterwards;
* `Raw.step_eq`: as long as the indexes fit into 64 bits (`Log.Fits`, `Log.Room`) the code does to
  the slice what `Log.perform` does to the `Log` it represents. Every value that the model computes
  with mathematical integers is then the one of the code.
-/

namespace Raft

namespace Raw

/-! ## Reading -/

/-- `log[len(log)-1].Index`. -/
def lastLogIndexLocked (log : List LogEntry) : Option Int :=
  (Slice.at? log (log.length - 1)).map (·.index)

/-- `log[0].Index`. -/
def lastIncludedIndexLocked (log : List LogEntry) : Option Int := (Slice.at? log 0).map (·.index)

def sliceIndexLocked (log : List LogEntry) (raftIndex : Int) : Option Int :=
  (lastIncludedIndexLocked log).map (fun first => wrap64 (raftIndex - first))

/-- The outer `Option` is that of the slice expressions, the inner one is the result. -/
def entryAtLocked (log : List LogEntry) (raftIndex : Int) : Option (Option LogEntry) :=
  (sliceIndexLocked log raftIndex).bind fun si =>
    if si < 0 ∨ si ≥ log.length then some none else (Slice.at? log si).map some

/-- The entries of a request, at the end of `makeAppendRequestLocked`. -/
def entriesFrom (log : List LogEntry) (next : Int) : Option (List LogEntry) :=
  (sliceIndexLocked log next).bind fun start =>
    let start := if start < 1 then 1 else start
    let start := if start > log.length then (log.length : Int) else start
    Slice.sub? log start log.length

/-- `log[1:]`, which the two functions that collect the membership go through. -/
def behindDummy (log : List LogEntry) : Option (List LogEntry) := Slice.sub? log 1 log.length

/-! ## Writing -/

/-- `startIndex` is the sum before it is cut to 64 bits. -/
def appendEntriesLocked (log : List LogEntry) : List LogEntry → Int → List LogEntry
  | [], _ => log
  | e :: rest, startIndex =>
    appendEntriesLocked
      (log ++
        [{ term := e.term, index := wrap64 startIndex, command := e.command, change := e.change }])
      rest (startIndex + 1)

/-- The loop of `HandleAppendEntries`; `idx` is the sum before it is cut to 64 bits. -/
def mergeEntries (log : List LogEntry) : List LogEntry → Int → Option (List LogEntry)
  | [], _ => some log
  | e :: rest, idx =>
    (entryAtLocked log (wrap64 idx)).bind fun
      | some existing =>
        if existing.term ≠ e.term then
          (sliceIndexLocked log (wrap64 idx)).bind fun si =>
            let si := if si < 1 then 1 else si
            (Slice.sub? log 0 si).map fun log => appendEntriesLocked log (e :: rest) idx
        else mergeEntries log rest (idx + 1)
      | none => some (appendEntriesLocked log (e :: rest) idx)

/-- What happens to a log: an entry of the node's own, the entries of a leader, a snapshot of a
leader, and a compaction. -/
inductive Op
  | append (term : Int) (command : Bytes) (change : Option MembershipChange)
  | entries (prevLogIndex prevLogTerm : Int) (entries : List LogEntry)
  | install (lastIncludedIndex lastIncludedTerm : Int)
  | compact (index : Int)

/-- The update of the slice by the code. -/
def step (log : List LogEntry) : Op → Option (List LogEntry)
  | .append term command change =>
    (lastLogIndexLocked log).map fun last =>
      log ++ [{ term := term, index := wrap64 (last + 1), command := command, change := change }]
  | .entries prevLogIndex prevLogTerm entries =>
    (lastIncludedIndexLocked log).bind fun first =>
      if prevLogIndex < first then some log
      else
        (entryAtLocked log prevLogIndex).bind fun
          | none => some log
          | some prev =>
            if prev.term ≠ prevLogTerm then some log
            else mergeEntries log entries (prevLogIndex + 1)
  | .install lastIncludedIndex lastIncludedTerm =>
    (lastIncludedIndexLocked log).map fun first =>
      if lastIncludedIndex ≤ first then log
      else [{ term := lastIncludedTerm, index := lastIncludedIndex }]
  | .compact index =>
    (lastIncludedIndexLocked log).bind fun first =>
      if index ≤ first then some log
      else
        (entryAtLocked log index).bind fun
          | none => some log
          | some e =>
            (sliceIndexLocked log index).bind fun si =>
              if si < 0 ∨ si ≥ log.length then some log
              else
                -- a length is an `int`, so this sum is one, too
                (Slice.sub? log (si + 1) log.length).map fun suffix =>
                  { term := e.term, index := index } :: suffix

end Raw

/-! ## Nothing is out of range -/

namespace Raw

variable {l : Log} {i idx : Int} {entries : List LogEntry}

@[simp] theorem lastIncludedIndex_toList (l : Log) :
    lastIncludedIndexLocked l.toList = some l.head.index := by
  simp [lastIncludedIndexLocked, Log.toList]

@[simp] theorem lastLogIndex_toList (l : Log) :
    lastLogIndexLocked l.toList = some l.lastLogIndexLocked := by
  have hlast : l.toList[l.toList.length - 1]? = some l.last := by
    rw [← List.getLast?_eq_getElem?]
    unfold Log.toList Log.last
    rw [List.getLast?_cons, List.getLastD_eq_getLast?]
  have hlen : 0 < l.toList.length := by simp [Log.toList]
  unfold lastLogIndexLocked
  rw [Slice.at?_eq (by omega) (by omega),
    show ((l.toList.length : Int) - 1).toNat = l.toList.length - 1 from by omega, hlast]
  rfl

@[simp] theorem sliceIndex_toList (l : Log) (i : Int) :
    sliceIndexLocked l.toList i = some (wrap64 (i - l.head.index)) := by
  simp [sliceIndexLocked]

theorem entryAt_total (l : Log) (i : Int) : ∃ r, entryAtLocked l.toList i = some r := by
  unfold entryAtLocked
  simp only [sliceIndex_toList, Option.bind_some]
  split
  -- the position is within the slice
  · exact ⟨none, rfl⟩
  · next hin =>
    push Not at hin
    rw [Slice.at?_eq hin.1 hin.2, List.getElem?_eq_getElem (by omega)]
    exact ⟨_, rfl⟩

theorem entriesFrom_total (l : Log) (next : Int) : ∃ es, entriesFrom l.toList next = some es := by
  have hlen : 1 ≤ l.toList.length := by simp [Log.toList]
  unfold entriesFrom
  simp only [sliceIndex_toList, Option.bind_some]
  refine ⟨_, Slice.sub?_from ?_ ?_⟩
  · split
    · omega
    · split <;> omega
  · split
    · omega
    · split <;> omega

@[simp] theorem behindDummy_toList (l : Log) : behindDummy l.toList = some l.tail := by
  unfold behindDummy
  rw [Slice.sub?_from (by decide) (by simp [Log.toList])]
  rfl

theorem appendEntries_total (l : Log) (es : List LogEntry) (i : Int) :
    ∃ l' : Log, appendEntriesLocked l.toList es i = l'.toList := by
  induction es generalizing l i with
  | nil => exact ⟨l, rfl⟩
  | cons e rest ih => exact ih (l.append [_]) (i + 1)

/-- A cut behind the first element leaves a log. -/
theorem take_toList (hi : 1 ≤ i) : l.toList.take i.toNat = (l.truncate i).toList := by
  obtain ⟨k, hk⟩ : ∃ k : Nat, i.toNat = k + 1 := ⟨i.toNat - 1, by omega⟩
  unfold Log.truncate Log.toList
  rw [hk, List.take_succ_cons, show (i - 1).toNat = k from by omega]

theorem mergeEntries_total (l : Log) (es : List LogEntry) (idx : Int) :
    ∃ l' : Log, mergeEntries l.toList es idx = some l'.toList := by
  induction es generalizing idx with
  | nil => exact ⟨l, rfl⟩
  | cons e rest ih =>
    obtain ⟨r, hr⟩ := entryAt_total l (wrap64 idx)
    unfold mergeEntries
    rw [hr]
    cases r with
    -- nothing there, so the rest is appended
    | none =>
      obtain ⟨l', hl'⟩ := appendEntries_total l (e :: rest) idx
      exact ⟨l', congrArg some hl'⟩
    | some existing =>
      -- a conflict, or the same entry
      simp only [Option.bind_some, sliceIndex_toList]
      split
      · -- the entry was found, so the position is within the slice
        have hpos : wrap64 (wrap64 idx - l.head.index) < l.toList.length := by
          unfold entryAtLocked at hr
          simp only [sliceIndex_toList, Option.bind_some] at hr
          split at hr
          · cases hr
          · next hin =>
            push Not at hin
            exact hin.2
        have hlen : 1 ≤ l.toList.length := by simp [Log.toList]
        generalize wrap64 (wrap64 idx - l.head.index) = si at hpos
        have hcut : 1 ≤ (if si < 1 then 1 else si) ∧
            (if si < 1 then 1 else si) ≤ l.toList.length := by
          split <;> omega
        rw [Slice.sub?_to (by omega) hcut.2, take_toList hcut.1]
        obtain ⟨l', hl'⟩ := appendEntries_total (l.truncate _) (e :: rest) idx
        exact ⟨l', congrArg some hl'⟩
      · exact ih (idx + 1)

/-- **No expression is out of range**, and the slice stays non-empty, whatever the arguments. -/
theorem step_total (l : Log) (op : Op) : ∃ l' : Log, step l.toList op = some l'.toList := by
  cases op with
  -- every operation that reads the slice finds a dummy there
  | append term command change =>
    simp only [step, lastLogIndex_toList, Option.map_some]
    exact ⟨l.append [_], rfl⟩
  | entries prevLogIndex prevLogTerm es =>
    obtain ⟨r, hr⟩ := entryAt_total l prevLogIndex
    simp only [step, lastIncludedIndex_toList, Option.bind_some, hr]
    split
    · exact ⟨l, rfl⟩
    -- the previous entry is missing, is another one, or matches
    cases r with
    | none => exact ⟨l, rfl⟩
    | some prev =>
      dsimp only
      split
      · exact ⟨l, rfl⟩
      · exact mergeEntries_total l es _
  | install lastIncludedIndex lastIncludedTerm =>
    simp only [step, lastIncludedIndex_toList, Option.map_some]
    split
    · exact ⟨l, rfl⟩
    · exact ⟨⟨_, []⟩, rfl⟩
  | compact index =>
    obtain ⟨r, hr⟩ := entryAt_total l index
    simp only [step, lastIncludedIndex_toList, Option.bind_some, hr]
    split
    · exact ⟨l, rfl⟩
    cases r with
    | none => exact ⟨l, rfl⟩
    | some e =>
      simp only [sliceIndex_toList, Option.bind_some]
      split
      -- the index lies in the snapshot, or has no entry
      · exact ⟨l, rfl⟩
      · next hin =>
        push Not at hin
        rw [Slice.sub?_from (by omega) (by omega)]
        exact ⟨⟨_, _⟩, rfl⟩

end Raw

/-! ## The slice and the log it represents -/

namespace Log

/-- The same update with mathematical integers. -/
def perform (l : Log) : Raw.Op → Log
  | .append term command change =>
    l.append
      [{ term := term, index := l.lastLogIndexLocked + 1, command := command, change := change }]
  | .entries prevLogIndex prevLogTerm entries =>
    if prevLogIndex < l.head.index then l
    else
      match l.entryAtLocked prevLogIndex with
      | none => l
      | some prev =>
        if prev.term ≠ prevLogTerm then l else (l.mergeEntries entries (prevLogIndex + 1)).1
  | .install lastIncludedIndex lastIncludedTerm =>
    if lastIncludedIndex ≤ l.head.index then l
    else ⟨{ term := lastIncludedTerm, index := lastIncludedIndex }, []⟩
  | .compact index =>
    if index ≤ l.head.index then l
    else
      match l.entryAtLocked index with
      | none => l
      | some e => ⟨{ term := e.term, index := index }, l.slice (l.sliceIndexLocked index + 1)⟩

/-- A log whose indexes are consecutive and 64-bit integers. -/
structure Fits (l : Log) : Prop where
  contiguous : l.Contiguous
  nonneg : 0 ≤ l.head.index
  small : l.head.index + l.tail.length < 2 ^ 63

/-- The arguments are 64-bit integers, and there are indexes left for the entries. -/
def Room (l : Log) : Raw.Op → Prop
  | .append .. => l.lastLogIndexLocked + 1 < 2 ^ 63
  | .entries prevLogIndex _ entries =>
    IsInt prevLogIndex ∧ l.lastLogIndexLocked + entries.length < 2 ^ 63
  | .install lastIncludedIndex _ => IsInt lastIncludedIndex
  | .compact index => IsInt index

end Log

namespace Raw

variable {l : Log} {i idx : Int} {es : List LogEntry}

theorem length_toList (l : Log) : (l.toList.length : Int) = l.tail.length + 1 := by
  simp [Log.toList]

/-- **The lookup of the code is that of the model.** A difference that does not fit into 64 bits
comes out beyond the end of the slice. -/
theorem entryAt_eq (h : l.Fits) (hi : IsInt i) :
    entryAtLocked l.toList i = some (l.entryAtLocked i) := by
  have hlen := length_toList l
  have h1 := h.nonneg
  have h2 := h.small
  obtain ⟨hlo, hhi⟩ := hi
  unfold entryAtLocked Log.entryAtLocked Log.sliceIndexLocked
  simp only [sliceIndex_toList, Option.bind_some]
  -- the first index is not negative, so the difference can only be too small
  by_cases hrange : -2 ^ 63 ≤ i - l.head.index
  · rw [wrap64_of_range hrange (by omega)]
    split
    · rfl
    · next hin =>
      push Not at hin
      rw [Slice.at?_eq hin.1 hin.2, List.getElem?_eq_getElem (by omega)]
      rfl
  -- below the first index there is nothing
  · rw [wrap64_of_lt (by omega) (not_le.mp hrange), if_pos (by omega), if_pos (by omega)]

theorem sliceIndex_eq (h : l.Fits) (hlo : l.head.index ≤ i) (hhi : i < 2 ^ 63) :
    sliceIndexLocked l.toList i = some (l.sliceIndexLocked i) := by
  have h1 := h.nonneg
  rw [sliceIndex_toList, wrap64_of_range (by omega) (by omega)]
  rfl

theorem appendEntries_eq (l : Log) (hlo : -2 ^ 63 ≤ i) (hhi : i + es.length ≤ 2 ^ 63) :
    appendEntriesLocked l.toList es i = (l.appendEntriesLocked es i).toList := by
  induction es generalizing l i with
  | nil => rfl
  | cons e rest ih =>
    simp only [List.length_cons] at hhi
    push_cast at hhi
    unfold appendEntriesLocked Log.appendEntriesLocked
    rw [wrap64_of_range hlo (by omega)]
    exact ih (l.append [_]) (by omega) (by omega)

theorem mergeEntries_eq (h : l.Fits) (hlo : l.head.index < idx) (hhi : idx + es.length ≤ 2 ^ 63) :
    mergeEntries l.toList es idx = some (l.mergeEntries es idx).1.toList := by
  have hnn := h.nonneg
  induction es generalizing idx with
  | nil => rfl
  | cons e rest ih =>
    have hend := hhi
    simp only [List.length_cons] at hhi
    push_cast at hhi
    unfold mergeEntries Log.mergeEntries
    rw [wrap64_of_range (by omega) (by omega), entryAt_eq h ⟨by omega, by omega⟩, Option.bind_some]
    cases hget : l.entryAtLocked idx with
    -- behind the end
    | none => exact congrArg some (appendEntries_eq l (by omega) hend)
    | some existing =>
      dsimp only
      split
      · -- a conflict: the position of the entry is within the slice and behind the dummy
        have hpos : l.sliceIndexLocked idx < l.toList.length := by
          rw [length_toList]
          have := Log.le_last_of_entryAt h.contiguous hget
          rw [Log.lastLogIndex_of_contiguous h.contiguous] at this
          unfold Log.sliceIndexLocked
          omega
        have hone : 1 ≤ l.sliceIndexLocked idx := by
          unfold Log.sliceIndexLocked
          omega
        rw [sliceIndex_eq h hlo.le (by omega), Option.bind_some]
        simp only [if_neg (not_lt.mpr hone)]
        rw [Slice.sub?_to (by omega) hpos.le, take_toList hone, Option.map_some,
          appendEntries_eq _ (by omega) hend]
      · exact ih (by omega) (by omega)

/-- **The code does to the slice what the model does to the log.** -/
theorem step_eq (h : l.Fits) {op : Op} (hroom : l.Room op) :
    step l.toList op = some (l.perform op).toList := by
  have hlast := Log.lastLogIndex_of_contiguous h.contiguous
  have hnn := h.nonneg
  cases op with
  | append term command change =>
    -- the new index does not wrap
    have hsmall : l.lastLogIndexLocked + 1 < 2 ^ 63 := hroom
    simp only [step, lastLogIndex_toList, Option.map_some, Log.perform]
    rw [wrap64_of_range (by omega) hsmall]
    rfl
  | entries prevLogIndex prevLogTerm es =>
    obtain ⟨hprev, hsmall⟩ := hroom
    simp only [step, lastIncludedIndex_toList, Option.bind_some, entryAt_eq h hprev, Log.perform]
    split
    · rfl
    next hlo =>
    cases hget : l.entryAtLocked prevLogIndex with
    | none => rfl
    | some prev =>
      have hle := Log.le_last_of_entryAt h.contiguous hget
      dsimp only
      split
      · rfl
      · exact mergeEntries_eq h (by omega) (by omega)
  | install lastIncludedIndex lastIncludedTerm =>
    simp only [step, lastIncludedIndex_toList, Option.map_some, Log.perform]
    split
    · rfl
    · rfl
  | compact index =>
    have hint : IsInt index := hroom
    simp only [step, lastIncludedIndex_toList, Option.bind_some, entryAt_eq h hint, Log.perform]
    split
    · rfl
    next hlo =>
    cases hget : l.entryAtLocked index with
    | none => rfl
    | some e =>
      have hle := Log.le_last_of_entryAt h.contiguous hget
      have hlen := length_toList l
      -- an index that has an entry is a position of the slice
      have hpos : 0 ≤ l.sliceIndexLocked index ∧ l.sliceIndexLocked index < l.toList.length := by
        unfold Log.sliceIndexLocked
        omega
      simp only [sliceIndex_eq h (not_le.mp hlo).le hint.2, Option.bind_some]
      rw [if_neg (by omega), Slice.sub?_from (by omega) (by omega)]
      rfl

end Raw

end Raft
