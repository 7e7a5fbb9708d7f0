import RaftStore.Raft.Log

/-!
# Reading and merging the log

How the accessors of the log slice and the loop of `HandleAppendEntries` act on the entries behind
the dummy.

* `entryAt_tail`, `entryAt_cases`: an index above the dummy is a position in the tail;
* `mergeEntries_cases`: what the loop makes of the log, in one equation per outcome;
* `Contiguous`: entries carry their index. Appending, merging and compacting keep it.
-/

namespace Raft

namespace Log

variable {l : Log} {entries : List LogEntry} {idx : Int} {i : Int} {e : LogEntry} {q : Nat}

/-- A log that is not dirty has not changed. -/
theorem mergeEntries_of_clean (h : (l.mergeEntries entries idx).2 = false) :
    (l.mergeEntries entries idx).1 = l := by
  induction entries generalizing idx with
  | nil => rfl
  | cons e rest ih =>
    unfold mergeEntries at h ⊢
    split
    · next existing hget =>
      rw [hget] at h
      dsimp only at h
      split
      · next hterm =>
        rw [if_pos hterm] at h
        cases h
      · next hterm =>
        rw [if_neg hterm] at h
        exact ih h
    · next hget =>
      rw [hget] at h
      cases h

@[simp] theorem head_appendEntries : (l.appendEntriesLocked entries idx).head = l.head := by
  induction entries generalizing l idx with
  | nil => rfl
  | cons e rest ih => exact ih

@[simp] theorem head_mergeEntries : (l.mergeEntries entries idx).1.head = l.head := by
  induction entries generalizing idx with
  | nil => rfl
  | cons e rest ih =>
    unfold mergeEntries
    split
    · split
      · exact head_appendEntries
      · exact ih
    · exact head_appendEntries

/-- An entry as `appendEntriesLocked` copies it. -/
def Copies (x e : LogEntry) : Prop := x.term = e.term ∧ x.command = e.command ∧ x.change = e.change

theorem mem_appendEntries {x : LogEntry} (hx : x ∈ (l.appendEntriesLocked entries idx).tail) :
    x ∈ l.tail ∨ ∃ e ∈ entries, Copies x e := by
  induction entries generalizing l idx with
  | nil => exact Or.inl hx
  | cons e rest ih =>
    unfold appendEntriesLocked at hx
    rcases ih hx with hl | ⟨y, hy, hc⟩
    · rcases List.mem_append.mp hl with hold | hnew
      · exact Or.inl hold
      · rw [List.mem_singleton.mp hnew]
        exact Or.inr ⟨e, List.mem_cons_self, rfl, rfl, rfl⟩
    · exact Or.inr ⟨y, List.mem_cons_of_mem _ hy, hc⟩

/-- The entries of a merged log are old ones, or copies of those of the request. -/
theorem mem_mergeEntries {x : LogEntry} (hx : x ∈ (l.mergeEntries entries idx).1.tail) :
    x ∈ l.tail ∨ ∃ e ∈ entries, Copies x e := by
  induction entries generalizing idx with
  | nil => exact Or.inl hx
  | cons e rest ih =>
    unfold mergeEntries at hx
    split at hx
    · split at hx
      · rcases mem_appendEntries hx with hl | hnew
        · exact Or.inl (List.mem_of_mem_take hl)
        · exact Or.inr hnew
      · rcases ih hx with hl | ⟨y, hy, hc⟩
        · exact Or.inl hl
        · exact Or.inr ⟨y, List.mem_cons_of_mem _ hy, hc⟩
    · exact mem_appendEntries hx

/-! ## Positions -/

theorem entryAt_of_lt (h : i < l.head.index) : l.entryAtLocked i = none := by
  unfold entryAtLocked sliceIndexLocked
  dsimp only
  rw [if_pos (Or.inl (by omega))]

theorem entryAt_head : l.entryAtLocked l.head.index = some l.head := by
  unfold entryAtLocked sliceIndexLocked
  simp [toList]

/-- Above the dummy an index is a position in the tail. -/
theorem entryAt_tail (k : Nat) : l.entryAtLocked (l.head.index + 1 + k) = l.tail[k]? := by
  unfold entryAtLocked sliceIndexLocked toList
  dsimp only
  rw [show (l.head.index + 1 + (k : Int) - l.head.index).toNat = k + 1 from by omega,
    List.getElem?_cons_succ, List.length_cons]
  split
  · rw [List.getElem?_eq_none (by omega)]
  · rfl

/-- An index that the log holds is the dummy's, or a position in the tail. -/
theorem entryAt_cases (h : l.entryAtLocked i = some e) :
    (i = l.head.index ∧ e = l.head) ∨
      ∃ k : Nat, i = l.head.index + 1 + k ∧ l.tail[k]? = some e := by
  rcases lt_trichotomy i l.head.index with hlt | rfl | hgt
  · rw [entryAt_of_lt hlt] at h
    cases h
  · rw [entryAt_head] at h
    exact Or.inl ⟨rfl, (Option.some.inj h).symm⟩
  · obtain ⟨k, hk⟩ : ∃ k : Nat, i = l.head.index + 1 + k := ⟨(i - l.head.index - 1).toNat, by omega⟩
    rw [hk, entryAt_tail] at h
    exact Or.inr ⟨k, hk, h⟩

/-- The entries carry their index. -/
def Contiguous (l : Log) : Prop :=
  ∀ (k : Nat) (e : LogEntry), l.tail[k]? = some e → e.index = l.head.index + 1 + k

theorem lastLogIndex_of_contiguous (h : l.Contiguous) :
    l.lastLogIndexLocked = l.head.index + l.tail.length := by
  unfold lastLogIndexLocked last
  rw [List.getLastD_eq_getLast?, List.getLast?_eq_getElem?]
  cases ht : l.tail[l.tail.length - 1]? with
  | none =>
    have := List.getElem?_eq_none_iff.mp ht
    have hlen : l.tail.length = 0 := by omega
    simp [hlen]
  | some e =>
    have hlt := (List.getElem?_eq_some_iff.mp ht).1
    rw [Option.getD_some, h _ e ht]
    omega

/-- An entry that the log retains is not behind its last one. -/
theorem le_last_of_entryAt (h : l.Contiguous)
    (he : l.entryAtLocked i = some e) : i ≤ l.lastLogIndexLocked := by
  rw [lastLogIndex_of_contiguous h]
  rcases entryAt_cases he with ⟨rfl, _⟩ | ⟨k, rfl, hget⟩
  · omega
  · have := (List.getElem?_eq_some_iff.mp hget).1
    omega

/-! ## The merge loop -/

/-- Copies with consecutive indexes. -/
def renumber : Int → List LogEntry → List LogEntry
  | _, [] => []
  | i, e :: rest => { e with index := i } :: renumber (i + 1) rest

theorem appendEntries_eq : l.appendEntriesLocked entries idx = l.append (renumber idx entries) := by
  induction entries generalizing l idx with
  | nil => simp [appendEntriesLocked, renumber, append]
  | cons e rest ih =>
    unfold appendEntriesLocked renumber
    rw [ih]
    simp [append]

theorem getElem?_renumber (i : Int) (es : List LogEntry) (k : Nat) :
    (renumber i es)[k]? = es[k]?.map (fun e => { e with index := i + k }) := by
  induction es generalizing i k with
  | nil => simp [renumber]
  | cons e rest ih =>
    cases k with
    | zero => simp [renumber]
    | succ k =>
      unfold renumber
      rw [List.getElem?_cons_succ, List.getElem?_cons_succ, ih]
      congr 1
      funext x
      congr 1
      push_cast
      omega

@[simp] theorem length_renumber (i : Int) (es : List LogEntry) :
    (renumber i es).length = es.length := by
  induction es generalizing i with
  | nil => rfl
  | cons e rest ih => simp [renumber, ih]

/-- The first `j` entries are already there, from position `q` on. -/
def Matches (tail entries : List LogEntry) (q j : Nat) : Prop :=
  ∀ k < j, ∃ x e, tail[q + k]? = some x ∧ entries[k]? = some e ∧ x.term = e.term

/-- What is already there is there. -/
theorem Matches.length_take {tail : List LogEntry} {q j : Nat} (h : Matches tail entries q j)
    (hlen : q ≤ tail.length) : (tail.take (q + j)).length = q + j := by
  rw [List.length_take]
  cases j with
  | zero => omega
  | succ j =>
    obtain ⟨x, _, hx, _⟩ := h j (Nat.lt_succ_self j)
    have := (List.getElem?_eq_some_iff.mp hx).1
    omega

/-- **The merge loop** skips the entries that are already there. From the first one that is missing
or in conflict on, the log gives way to the request. -/
theorem mergeEntries_cases (entries : List LogEntry) (hq : idx = l.head.index + 1 + q)
    (hlen : q ≤ l.tail.length) : ∃ j ≤ entries.length, Matches l.tail entries q j ∧
      (j = entries.length ∧ l.mergeEntries entries idx = (l, false) ∨
        j < entries.length ∧
          (∀ x e, l.tail[q + j]? = some x → entries[j]? = some e → x.term ≠ e.term) ∧
          l.mergeEntries entries idx =
            (⟨l.head, l.tail.take (q + j) ++ renumber (idx + j) (entries.drop j)⟩, true)) := by
  induction entries generalizing idx q with
  | nil => exact ⟨0, le_refl _, fun k hk => absurd hk (Nat.not_lt_zero k), Or.inl ⟨rfl, rfl⟩⟩
  | cons e rest ih =>
    unfold mergeEntries
    rw [hq, entryAt_tail]
    cases hget : l.tail[q]? with
    | none =>
      -- the log ends here
      have hend : l.tail.take q = l.tail :=
        List.take_of_length_le (List.getElem?_eq_none_iff.mp hget)
      refine ⟨0, Nat.zero_le _, fun k hk => absurd hk (Nat.not_lt_zero k), Or.inr ⟨?_, ?_, ?_⟩⟩
      · exact Nat.succ_pos _
      · intro x _ hx
        rw [Nat.add_zero, hget] at hx
        cases hx
      · simp [appendEntries_eq, hend, append]
    | some x =>
      have hlt := (List.getElem?_eq_some_iff.mp hget).1
      dsimp only
      by_cases hterm : x.term = e.term
      · -- the entry is there: the loop goes on
        rw [if_neg (not_not.mpr hterm)]
        have hq' : l.head.index + 1 + (q : Int) + 1 = l.head.index + 1 + ((q + 1 : Nat) : Int) := by
          push_cast
          omega
        obtain ⟨j, hj, hmatch, hres⟩ := ih hq' hlt
        refine ⟨j + 1, Nat.succ_le_succ hj, ?_, ?_⟩
        · intro k hk
          cases k with
          | zero => exact ⟨x, e, hget, rfl, hterm⟩
          | succ k =>
            obtain ⟨y, f, hy, hf, hyf⟩ := hmatch k (Nat.lt_of_succ_lt_succ hk)
            refine ⟨y, f, ?_, hf, hyf⟩
            rw [← hy]
            congr 1
            omega
        · rcases hres with ⟨hall, heq⟩ | ⟨hless, hne, heq⟩
          · exact Or.inl ⟨congrArg Nat.succ hall, heq⟩
          · refine Or.inr ⟨Nat.succ_lt_succ hless, ?_, ?_⟩
            · intro y f hy hf
              refine hne y f ?_ hf
              rw [← hy]
              congr 1
              omega
            · rw [heq, show q + 1 + j = q + (j + 1) from by omega,
                show l.head.index + 1 + (q : Int) + 1 + (j : Int) =
                  l.head.index + 1 + (q : Int) + ((j + 1 : Nat) : Int) from by omega]
              rfl
      · -- a conflict: the suffix gives way
        rw [if_pos hterm]
        refine ⟨0, Nat.zero_le _, fun k hk => absurd hk (Nat.not_lt_zero k), Or.inr ⟨?_, ?_, ?_⟩⟩
        · exact Nat.succ_pos _
        · intro y f hy hf
          rw [Nat.add_zero, hget] at hy
          cases hy
          cases hf
          exact hterm
        · have hsi : l.sliceIndexLocked (l.head.index + 1 + q) = q + 1 := by
            unfold sliceIndexLocked
            omega
          rw [hsi, if_neg (by omega), appendEntries_eq]
          simp [truncate, append]

/-- The merged log ends where the old one did, or with the entries of the request. -/
theorem length_mergeEntries (hq : idx = l.head.index + 1 + q) (hlen : q ≤ l.tail.length) :
    (l.mergeEntries entries idx).1.tail.length ≤ l.tail.length + entries.length := by
  obtain ⟨j, _, hmatch, ⟨_, heq⟩ | ⟨hless, _, heq⟩⟩ := mergeEntries_cases entries hq hlen
  · simp [heq]
  · have hcut := hmatch.length_take hlen
    simp only [heq, List.length_append, hcut, length_renumber, List.length_drop]
    omega

/-- The index before the entries of a request, once it has been found in the log. -/
theorem exists_position {i t : Int} (hlo : l.lastIncludedIndexLocked ≤ i)
    (ht : l.termAtLocked i = some t) : ∃ q : Nat, q ≤ l.tail.length ∧ i = l.head.index + q := by
  obtain ⟨e, he, _⟩ := Option.map_eq_some_iff.mp ht
  rcases entryAt_cases he with ⟨rfl, _⟩ | ⟨k, hk, hget⟩
  · exact ⟨0, Nat.zero_le _, by omega⟩
  · have hlt := (List.getElem?_eq_some_iff.mp hget).1
    exact ⟨k + 1, hlt, by push_cast; omega⟩

/-- The converse: every position has an entry, the first one being the dummy. -/
theorem entryAt_position (hq : q ≤ l.tail.length) :
    ∃ e, l.entryAtLocked (l.head.index + q) = some e := by
  cases q with
  | zero => exact ⟨l.head, by simpa using entryAt_head⟩
  | succ k =>
    refine ⟨l.tail[k], ?_⟩
    rw [show l.head.index + ((k + 1 : Nat) : Int) = l.head.index + 1 + (k : Int) from by
      push_cast; omega, entryAt_tail]
    exact List.getElem?_eq_getElem hq

/-- **What the loop leaves** in the place of an entry of the request: what was there, of the same
term, or a copy. -/
theorem getElem?_mergeEntries_cases {q k : Nat} (hq : idx = l.head.index + 1 + q)
    (hlen : q ≤ l.tail.length) (he : entries[k]? = some e) :
    ∃ x, (l.mergeEntries entries idx).1.tail[q + k]? = some x ∧
      (l.tail[q + k]? = some x ∧ x.term = e.term ∨ x = { e with index := idx + k }) := by
  obtain ⟨j, _, hmatch, hres⟩ := mergeEntries_cases entries hq hlen
  have hk := (List.getElem?_eq_some_iff.mp he).1
  -- an entry that was already there
  have hold : k < j → ∃ x, l.tail[q + k]? = some x ∧ x.term = e.term := by
    intro hkj
    obtain ⟨x, e', hx, he', hterm⟩ := hmatch k hkj
    obtain rfl : e' = e := Option.some.inj (he'.symm.trans he)
    exact ⟨x, hx, hterm⟩
  rcases hres with ⟨rfl, heq⟩ | ⟨hless, _, heq⟩
  · rw [heq]
    obtain ⟨x, hx, hterm⟩ := hold hk
    exact ⟨x, hx, Or.inl ⟨hx, hterm⟩⟩
  · rw [heq]
    by_cases hkj : k < j
    · obtain ⟨x, hx, hterm⟩ := hold hkj
      have hlt := (List.getElem?_eq_some_iff.mp hx).1
      refine ⟨x, ?_, Or.inl ⟨hx, hterm⟩⟩
      show (l.tail.take (q + j) ++ _)[q + k]? = _
      rw [List.getElem?_append_left (by rw [List.length_take]; omega), List.getElem?_take,
        if_pos (by omega), hx]
    · refine ⟨{ e with index := idx + k }, ?_, Or.inr rfl⟩
      have hcut := hmatch.length_take hlen
      show (l.tail.take (q + j) ++ _)[q + k]? = _
      rw [List.getElem?_append_right (by omega), hcut, show q + k - (q + j) = k - j from by omega,
        getElem?_renumber, List.getElem?_drop, show j + (k - j) = k from by omega, he,
        show idx + (j : Int) + ((k - j : Nat) : Int) = idx + k from by omega]
      rfl

/-- After the loop the log holds entries of the terms of the request. -/
theorem getElem?_mergeEntries {q k : Nat} (hq : idx = l.head.index + 1 + q)
    (hlen : q ≤ l.tail.length) (he : entries[k]? = some e) :
    ∃ x, (l.mergeEntries entries idx).1.tail[q + k]? = some x ∧ x.term = e.term := by
  obtain ⟨x, hx, ⟨_, hterm⟩ | rfl⟩ := getElem?_mergeEntries_cases hq hlen he
  · exact ⟨x, hx, hterm⟩
  · exact ⟨_, hx, rfl⟩

/-! ## Contiguous logs -/

theorem Contiguous.append (h : l.Contiguous)
    (he : e.index = l.lastLogIndexLocked + 1) : (l.append [e]).Contiguous := by
  intro k x hx
  rw [lastLogIndex_of_contiguous h] at he
  show x.index = l.head.index + 1 + k
  have hx' : (l.tail ++ [e])[k]? = some x := hx
  rcases Nat.lt_or_ge k l.tail.length with hk | hk
  · rw [List.getElem?_append_left hk] at hx'
    exact h k x hx'
  · have hlt := (List.getElem?_eq_some_iff.mp hx').1
    rw [List.length_append, List.length_singleton] at hlt
    obtain rfl : k = l.tail.length := by omega
    rw [List.getElem?_concat_length, Option.some.injEq] at hx'
    rw [← hx', he]
    omega

theorem Contiguous.merge (h : l.Contiguous) (hq : idx = l.head.index + 1 + q)
    (hlen : q ≤ l.tail.length) : (l.mergeEntries entries idx).1.Contiguous := by
  obtain ⟨j, _, hmatch, ⟨_, heq⟩ | ⟨_, _, heq⟩⟩ := mergeEntries_cases entries hq hlen
  · rw [heq]
    exact h
  · rw [heq]
    intro k x hx
    have hx' : (l.tail.take (q + j) ++ renumber (idx + j) (entries.drop j))[k]? = some x := hx
    show x.index = l.head.index + 1 + k
    have hcut := hmatch.length_take hlen
    rcases Nat.lt_or_ge k (q + j) with hk | hk
    · rw [List.getElem?_append_left (by omega), List.getElem?_take, if_pos hk] at hx'
      exact h k x hx'
    · rw [List.getElem?_append_right (by omega), hcut, getElem?_renumber] at hx'
      obtain ⟨e, _, rfl⟩ := Option.map_eq_some_iff.mp hx'
      show idx + j + ((k - (q + j) : Nat) : Int) = _
      omega

/-- The suffix behind an index. -/
theorem slice_tail (h : l.head.index ≤ i) :
    l.slice (l.sliceIndexLocked i + 1) = l.tail.drop (i - l.head.index).toNat := by
  unfold slice sliceIndexLocked toList
  rw [show (i - l.head.index + 1).toNat = (i - l.head.index).toNat + 1 from by omega,
    List.drop_succ_cons]

/-- Compaction keeps the positions behind the index. -/
theorem entryAt_drop {i j t : Int} (hi : l.head.index ≤ i) (hj : i < j) :
    entryAtLocked ⟨{ term := t, index := i }, l.slice (l.sliceIndexLocked i + 1)⟩ j =
      l.entryAtLocked j := by
  obtain ⟨k, rfl⟩ : ∃ k : Nat, j = i + 1 + k := ⟨(j - i - 1).toNat, by omega⟩
  rw [show i + 1 + (k : Int) = l.head.index + 1 + (((i - l.head.index).toNat + k : Nat) : Int)
    from by
    omega, entryAt_tail, ← List.getElem?_drop, ← slice_tail hi,
    show l.head.index + 1 + (((i - l.head.index).toNat + k : Nat) : Int) = i + 1 + (k : Int) from by
    omega]
  exact entryAt_tail (l := ⟨{ term := t, index := i }, l.slice (l.sliceIndexLocked i + 1)⟩) k

theorem Contiguous.drop (h : l.Contiguous) {i t : Int} (hi : l.head.index ≤ i) :
    Contiguous ⟨{ term := t, index := i }, l.slice (l.sliceIndexLocked i + 1)⟩ := by
  intro k x hx
  have hx' : (l.slice (l.sliceIndexLocked i + 1))[k]? = some x := hx
  rw [slice_tail hi, List.getElem?_drop] at hx'
  have := h _ x hx'
  show x.index = i + 1 + k
  push_cast at this
  omega

/-- In a contiguous log the entries up to an index are the first ones. -/
theorem Contiguous.takeWhile_eq (h : l.Contiguous) (i : Int) :
    l.tail.takeWhile (fun e => e.index ≤ i) = l.tail.take (i - l.head.index).toNat := by
  obtain ⟨head, tail⟩ := l
  induction tail generalizing head with
  | nil => simp
  | cons e rest ih =>
    have he : e.index = head.index + 1 := by simpa using h 0 e rfl
    have hrest : Contiguous ⟨e, rest⟩ := by
      intro k x hx
      have := h (k + 1) x hx
      dsimp only at this ⊢
      push_cast at this
      omega
    have ih' := ih e hrest
    dsimp only at ih' ⊢
    by_cases hi : e.index ≤ i
    · rw [List.takeWhile_cons_of_pos (by simpa using hi), ih',
        show (i - head.index).toNat = (i - e.index).toNat + 1 from by omega, List.take_succ_cons]
    · rw [List.takeWhile_cons_of_neg (by simpa using hi),
        show (i - head.index).toNat = 0 from by omega, List.take_zero]

/-- The same, selected by the index. -/
theorem Contiguous.filter_eq (h : l.Contiguous) (i : Int) :
    l.tail.filter (fun e => l.head.index < e.index ∧ e.index ≤ i) =
      l.tail.take (i - l.head.index).toNat := by
  have hfirst : ∀ e ∈ l.tail.take (i - l.head.index).toNat,
      decide (l.head.index < e.index ∧ e.index ≤ i) = true := by
    intro e he
    obtain ⟨k, hk⟩ := List.mem_iff_getElem?.mp he
    rw [List.getElem?_take] at hk
    split at hk
    · next hlt =>
      have := h k e hk
      simp only [decide_eq_true_eq]
      omega
    · cases hk
  have hrest : ∀ e ∈ l.tail.drop (i - l.head.index).toNat,
      ¬ decide (l.head.index < e.index ∧ e.index ≤ i) = true := by
    intro e he
    obtain ⟨k, hk⟩ := List.mem_iff_getElem?.mp he
    rw [List.getElem?_drop] at hk
    have := h _ e hk
    simp only [decide_eq_true_eq]
    push_cast at this
    omega
  conv_lhs => rw [← List.take_append_drop (i - l.head.index).toNat l.tail]
  rw [List.filter_append, List.filter_eq_self.mpr hfirst, List.filter_eq_nil_iff.mpr hrest,
    List.append_nil]

end Log

end Raft
