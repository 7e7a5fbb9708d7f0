import RaftStore.Raft.Merge

/-!
# A log and a compacted copy of it

`Compacted l c`: the log `c` is `l` from some position on, with a dummy that keeps the index and the
term of the entry at that position. At and above the dummy both give the same answers, and what the
code does to the one it does to the other: appending (`Compacted.append`), the merge loop
(`Compacted.merge`) and cutting a longer prefix off the copy (`Compacted.drop`).
-/

namespace Raft

namespace Log

variable {l c : Log} {e : LogEntry} {entries : List LogEntry} {i idx t : Int}

/-- The copy starts at position `j` of the log. -/
def Compacted (l c : Log) : Prop :=
  ∃ j : Nat, c.head.index = l.head.index + j ∧
    l.toList[j]?.map (·.term) = some c.head.term ∧ c.tail = l.toList.drop (j + 1)

theorem Compacted.refl (l : Log) : Compacted l l := ⟨0, by simp, by simp [toList], by simp [toList]⟩

/-- An index is a position of the slice. -/
theorem entryAt_slot (q : Nat) : l.entryAtLocked (l.head.index + q) = l.toList[q]? := by
  cases q with
  | zero => simpa [toList] using entryAt_head
  | succ k =>
    rw [show l.head.index + ((k + 1 : Nat) : Int) = l.head.index + 1 + (k : Int) from by
      push_cast; omega, entryAt_tail]
    simp [toList]

theorem Compacted.head_le (h : Compacted l c) : l.head.index ≤ c.head.index := by
  obtain ⟨j, hj, _, _⟩ := h
  omega

/-! ## Reading -/

/-- Above the dummy the two hold the same entries. -/
theorem Compacted.entryAt_eq (h : Compacted l c) (hi : c.head.index < i) :
    c.entryAtLocked i = l.entryAtLocked i := by
  obtain ⟨j, hj, _, htail⟩ := h
  obtain ⟨k, rfl⟩ : ∃ k : Nat, i = c.head.index + 1 + k := ⟨(i - c.head.index - 1).toNat, by omega⟩
  rw [entryAt_tail, htail, List.getElem?_drop, ← entryAt_slot]
  congr 1
  push_cast
  omega

/-- The dummy keeps its term as well. -/
theorem Compacted.termAt_eq (h : Compacted l c) (hi : c.head.index ≤ i) :
    c.termAtLocked i = l.termAtLocked i := by
  rcases Int.lt_or_eq_of_le hi with hlt | rfl
  · unfold termAtLocked
    rw [h.entryAt_eq hlt]
  · obtain ⟨j, hj, hterm, _⟩ := h
    unfold termAtLocked
    rw [entryAt_head, hj, entryAt_slot, hterm]
    rfl

theorem Compacted.contiguous (h : Compacted l c) (hl : l.Contiguous) : c.Contiguous := by
  obtain ⟨j, hj, _, htail⟩ := h
  intro k x hx
  rw [htail] at hx
  have := hl (j + k) x (by simpa [toList, Nat.add_right_comm] using hx)
  push_cast at this
  omega

theorem Compacted.length_eq (h : Compacted l c) :
    c.head.index + c.tail.length = l.head.index + l.tail.length := by
  obtain ⟨j, hj, hterm, htail⟩ := h
  obtain ⟨x, hx, _⟩ := Option.map_eq_some_iff.mp hterm
  have hlt := (List.getElem?_eq_some_iff.mp hx).1
  rw [htail]
  simp only [List.length_drop, toList, List.length_cons] at hlt ⊢
  omega

theorem Compacted.lastLogIndex_eq (h : Compacted l c) (hl : l.Contiguous) :
    c.lastLogIndexLocked = l.lastLogIndexLocked := by
  rw [lastLogIndex_of_contiguous hl, lastLogIndex_of_contiguous (h.contiguous hl), h.length_eq]

/-- In a contiguous log the last entry is found under its index. -/
theorem entryAt_last (hl : l.Contiguous) : l.entryAtLocked l.lastLogIndexLocked = some l.last := by
  rw [lastLogIndex_of_contiguous hl, entryAt_slot]
  have hget : l.toList.getLast? = some l.last := by
    unfold last toList
    rw [List.getLast?_cons, List.getLastD_eq_getLast?]
  rw [← hget, List.getLast?_eq_getElem?]
  rfl

theorem Compacted.lastLogTerm_eq (h : Compacted l c) (hl : l.Contiguous) :
    c.lastLogTermLocked = l.lastLogTermLocked := by
  have hterm := h.termAt_eq (i := c.lastLogIndexLocked) (by
    rw [lastLogIndex_of_contiguous (h.contiguous hl)]
    omega)
  unfold termAtLocked at hterm
  rw [entryAt_last (h.contiguous hl), h.lastLogIndex_eq hl, entryAt_last hl] at hterm
  exact Option.some.inj hterm

/-- The entries behind an index that the copy still covers. -/
theorem Compacted.drop_eq (h : Compacted l c) (hi : c.head.index ≤ i) :
    c.tail.drop (i - c.head.index).toNat = l.tail.drop (i - l.head.index).toNat := by
  obtain ⟨j, hj, _, htail⟩ := h
  rw [htail, toList, List.drop_succ_cons, List.drop_drop]
  congr 1
  omega

/-! ## Writing -/

theorem Compacted.append (h : Compacted l c) (es : List LogEntry) :
    Compacted (l.append es) (c.append es) := by
  obtain ⟨j, hj, hterm, htail⟩ := h
  obtain ⟨x, hx, _⟩ := Option.map_eq_some_iff.mp hterm
  have hlt := (List.getElem?_eq_some_iff.mp hx).1
  have hlist : (l.append es).toList = l.toList ++ es := rfl
  refine ⟨j, hj, ?_, ?_⟩
  · rw [hlist, List.getElem?_append_left hlt]
    exact hterm
  · show c.tail ++ es = _
    rw [hlist, htail, List.drop_append_of_le_length hlt]

/-- Both are cut before an index above the dummy of the copy. -/
theorem Compacted.truncate (h : Compacted l c) (hi : c.head.index < idx) :
    Compacted (l.truncate (idx - l.head.index)) (c.truncate (idx - c.head.index)) := by
  obtain ⟨j, hj, hterm, htail⟩ := h
  have hlist : (l.truncate (idx - l.head.index)).toList =
      l.toList.take (idx - l.head.index).toNat := by
    unfold Log.truncate toList
    rw [show (idx - l.head.index).toNat = (idx - l.head.index - 1).toNat + 1 from by omega,
      List.take_succ_cons]
  refine ⟨j, hj, ?_, ?_⟩
  · rw [hlist, List.getElem?_take, if_pos (by omega)]
    exact hterm
  · show c.tail.take _ = _
    rw [hlist, htail, List.drop_take]
    congr 1
    omega

/-- **The merge loop does to the copy what it does to the log.** -/
theorem Compacted.merge (h : Compacted l c) (entries : List LogEntry) (hi : c.head.index < idx) :
    (c.mergeEntries entries idx).2 = (l.mergeEntries entries idx).2 ∧
      Compacted (l.mergeEntries entries idx).1 (c.mergeEntries entries idx).1 := by
  induction entries generalizing idx with
  | nil => exact ⟨rfl, h⟩
  | cons e rest ih =>
    unfold mergeEntries
    rw [h.entryAt_eq hi]
    cases l.entryAtLocked idx with
    | none =>
      dsimp only
      rw [appendEntries_eq, appendEntries_eq]
      exact ⟨rfl, h.append _⟩
    | some existing =>
      dsimp only
      split
      · -- the index is above both dummies, so neither is cut off
        have hle := h.head_le
        unfold sliceIndexLocked
        rw [if_neg (by omega), if_neg (by omega), appendEntries_eq, appendEntries_eq]
        exact ⟨rfl, (h.truncate hi).append _⟩
      · exact ih (by omega)

/-- The copy is compacted further. -/
theorem Compacted.drop (h : Compacted l c) (hi : c.head.index ≤ i)
    (he : c.entryAtLocked i = some e) :
    Compacted l ⟨{ term := e.term, index := i }, c.slice (c.sliceIndexLocked i + 1)⟩ := by
  have hterm := h.termAt_eq hi
  obtain ⟨j, hj, _, htail⟩ := h
  refine ⟨j + (i - c.head.index).toNat, ?_, ?_, ?_⟩
  · show i = _
    omega
  · rw [← entryAt_slot, show l.head.index + ((j + (i - c.head.index).toNat : Nat) : Int) = i from by
      omega]
    unfold termAtLocked at hterm
    rw [← hterm, he]
    rfl
  · show c.slice _ = _
    rw [slice_tail hi, htail, List.drop_drop]
    congr 1
    omega

end Log

end Raft
