import RaftStore.Raft.Node
import RaftStore.Raft.Merge
import RaftStore.Consensus.Chronicle

/-!
# The history behind a compacted log

A node's log together with its snapshot stands for a history: all entries from index 1 on,
the compacted ones included. `render h b` is the log slice of a node with history `h` that
has compacted the first `b` entries. The accessors of `Raft.Log` read off the history
everything the slice still holds (`termAt_render`, `entryAt_render`), and the operations on
the slice are operations on the history (`append_render`, `mergeEntries_render`).

`peersAfter` folds the membership changes of a history into a configuration; it is what
makes a history a log in the sense of `Consensus.Scheme`.
-/

namespace Refine

open Raft Consensus

/-! ## Histories -/

/-- The entries carry their position, counted from one. -/
def Numbered (h : List LogEntry) : Prop :=
  ∀ (k : Nat) (e : LogEntry), h[k]? = some e → e.index = k + 1

/-- The term of the last entry, `0` for an empty history. -/
def endTerm (h : List LogEntry) : Int := (h.getLast?).elim 0 (·.term)

/-- The slice of a node with history `h` and the first `b` entries compacted. -/
def render (h : List LogEntry) (b : Nat) : Log :=
  ⟨{ term := endTerm (h.take b), index := b }, h.drop b⟩

variable {h g : List LogEntry} {b : Nat} {i : Nat}

/-- The next entry carries the next index. -/
theorem Numbered.snoc (hn : Numbered h) {e : LogEntry} (he : e.index = h.length + 1) :
    Numbered (h ++ [e]) := by
  intro k x hx
  rcases Nat.lt_or_ge k h.length with hk | hk
  · rw [List.getElem?_append_left hk] at hx
    exact hn k x hx
  -- the new entry is the last
  · have hlen := (List.getElem?_eq_some_iff.mp hx).1
    rw [List.length_append, List.length_singleton] at hlen
    have hkl : k = h.length := by omega
    subst hkl
    rw [List.getElem?_concat_length, Option.some.injEq] at hx
    rw [← hx, he]

/-- The term at the end of a piece of a history is that of its last entry. -/
theorem endTerm_take_succ {k : Nat} {e : LogEntry} (he : h[k]? = some e) :
    endTerm (h.take (k + 1)) = e.term := by
  have hlt := (List.getElem?_eq_some_iff.mp he).1
  unfold endTerm
  rw [List.getLast?_eq_getElem?, List.length_take, Nat.min_eq_left (by omega),
    show k + 1 - 1 = k from by omega, getElem?_take_succ he (by omega)]
  rfl

@[simp] theorem endTerm_nil : endTerm [] = 0 := rfl

/-! ## Reading a rendered log -/

theorem toList_render : (render h b).toList =
    { term := endTerm (h.take b), index := (b : Int) } :: h.drop b := rfl

@[simp] theorem lastIncludedIndex_render : (render h b).lastIncludedIndexLocked = b := rfl

@[simp] theorem lastIncludedTerm_render :
    (render h b).lastIncludedTermLocked = endTerm (h.take b) := rfl

/-- The last entry, where not all is compacted. -/
theorem last_render_of_lt (hb : b < h.length) :
    (render h b).last = h.get ⟨h.length - 1, by omega⟩ := by
  have hget : (h.drop b).getLast? = some (h.get ⟨h.length - 1, by omega⟩) := by
    rw [List.getLast?_drop, if_neg (by omega), List.getLast?_eq_getElem?,
      List.getElem?_eq_getElem (by omega)]
    rfl
  show (h.drop b).getLastD _ = _
  rw [List.getLastD_eq_getLast?, hget]
  rfl

/-- The last entry, where all is compacted: the dummy. -/
theorem last_render_self : (render h h.length).last =
    { term := endTerm h, index := (h.length : Int) } := by
  unfold Log.last render
  rw [List.drop_length, List.take_length]
  rfl

/-- The last index is the length of the history. -/
theorem lastLogIndex_render (hn : Numbered h) (hb : b ≤ h.length) :
    (render h b).lastLogIndexLocked = h.length := by
  unfold Log.lastLogIndexLocked
  rcases hb.lt_or_eq with hlt | rfl
  · rw [last_render_of_lt hlt]
    have := hn (h.length - 1) _ (List.getElem?_eq_getElem (by omega))
    rw [List.get_eq_getElem, this]
    omega
  · rw [last_render_self]

/-- The last term is that of the history. -/
theorem lastLogTerm_render (hb : b ≤ h.length) :
    (render h b).lastLogTermLocked = endTerm h := by
  unfold Log.lastLogTermLocked
  rcases hb.lt_or_eq with hlt | rfl
  · rw [last_render_of_lt hlt]
    have := endTerm_take_succ (h := h) (k := h.length - 1) (List.getElem?_eq_getElem (by omega))
    rw [show h.length - 1 + 1 = h.length from by omega, List.take_length] at this
    rw [List.get_eq_getElem, this]
  · rw [last_render_self]

/-- Above the snapshot the slice holds the entries of the history. -/
theorem entryAt_render (hi : b < i) :
    (render h b).entryAtLocked i = h[i - 1]? := by
  unfold Log.entryAtLocked Log.sliceIndexLocked
  rw [toList_render, List.length_cons, List.length_drop]
  show (if _ then none else _) = _
  rw [show (render h b).head.index = (b : Int) from rfl]
  -- behind the log, and within it
  rcases Nat.lt_or_ge h.length i with hlt | hge
  · rw [if_pos (Or.inr (by omega)), List.getElem?_eq_none (by omega)]
  · rw [if_neg (by omega), show ((i : Int) - b).toNat = (i - b - 1) + 1 from by omega,
      List.getElem?_cons_succ, List.getElem?_drop, show b + (i - b - 1) = i - 1 from by omega]

/-- At the last compacted index there is the dummy. -/
theorem entryAt_render_self : (render h b).entryAtLocked b =
    some { term := endTerm (h.take b), index := (b : Int) } := by
  unfold Log.entryAtLocked Log.sliceIndexLocked
  rw [toList_render, show (render h b).head.index = (b : Int) from rfl]
  simp

/-- Below it there is nothing. -/
theorem entryAt_render_of_lt {i : Int} (hi : i < b) : (render h b).entryAtLocked i = none := by
  unfold Log.entryAtLocked Log.sliceIndexLocked
  rw [show (render h b).head.index = (b : Int) from rfl]
  show (if _ then none else _) = _
  rw [if_pos (Or.inl (by omega))]

/-- The slice knows the terms from the snapshot's index to the end of the history. -/
theorem termAt_render (hb : b ≤ i) (hi : i ≤ h.length) :
    (render h b).termAtLocked i = some (endTerm (h.take i)) := by
  unfold Log.termAtLocked
  rcases hb.lt_or_eq with hlt | rfl
  · rw [entryAt_render hlt, List.getElem?_eq_getElem (by omega), Option.map_some]
    have := endTerm_take_succ (h := h) (k := i - 1) (List.getElem?_eq_getElem (by omega))
    rw [show i - 1 + 1 = i from by omega] at this
    rw [this]
  · rw [entryAt_render_self]
    rfl

/-- Where a rendered log has a term, it has not been compacted. -/
theorem termAt_render_some {i : Int} {t : Int} (h' : (render h b).termAtLocked i = some t) :
    ∃ j : Nat, i = j ∧ b ≤ j ∧ (b < j → j ≤ h.length) := by
  rcases lt_or_ge i (b : Int) with hlt | hge
  · unfold Log.termAtLocked at h'
    rw [entryAt_render_of_lt hlt] at h'
    cases h'
  · refine ⟨i.toNat, by omega, by omega, fun hj => ?_⟩
    by_contra hlen
    unfold Log.termAtLocked at h'
    rw [show i = (i.toNat : Int) from by omega, entryAt_render hj,
      List.getElem?_eq_none (by omega)] at h'
    cases h'

/-- The indices of a rendered log are contiguous. -/
theorem contiguous_render (hn : Numbered h) (b : Nat) : (render h b).Contiguous := by
  intro k e he
  have hget : h[b + k]? = some e := by simpa [render] using he
  have hidx := hn (b + k) e hget
  show e.index = (b : Int) + 1 + k
  push_cast at hidx
  omega

/-! ## Changing a rendered log -/

theorem append_render (hb : b ≤ h.length) (es : List LogEntry) :
    (render h b).append es = render (h ++ es) b := by
  unfold Log.append render
  rw [List.take_append_of_le_length hb, List.drop_append_of_le_length hb]

/-- Cutting the log cuts the history. -/
theorem truncate_render (hi : b ≤ i) :
    (render h b).truncate (i - b + 1) = render (h.take i) b := by
  unfold Log.truncate render
  rw [List.take_take, Nat.min_eq_left hi, List.drop_take,
    show ((i : Int) - b + 1 - 1).toNat = i - b from by omega]

/-- The entries above an index that the snapshot does not cover. -/
theorem slice_render (hi : b ≤ i) :
    (render h b).slice ((i : Int) - b + 1) = h.drop i := by
  unfold Log.slice
  rw [toList_render, show ((i : Int) - b + 1).toNat = (i - b) + 1 from by omega,
    List.drop_succ_cons, List.drop_drop, show b + (i - b) = i from by omega]

/-- Copying entries to the end of the log, with the indices that they carry. -/
theorem appendEntries_render (hb : b ≤ h.length) {es : List LogEntry} (hn : Numbered (h ++ es)) :
    (render h b).appendEntriesLocked es (h.length + 1) = render (h ++ es) b := by
  induction es generalizing h with
  | nil => rw [List.append_nil]; rfl
  -- the loop numbers the entries itself, and they carry those numbers
  | cons e rest ih =>
    have he : e.index = h.length + 1 := hn h.length e (by simp)
    have hcopy : (⟨e.term, h.length + 1, e.command, e.change⟩ : LogEntry) = e := by rw [← he]
    unfold Log.appendEntriesLocked
    rw [hcopy, append_render hb]
    have hlen : ((h ++ [e]).length : Int) = h.length + 1 := by simp
    rw [← hlen, show h ++ e :: rest = (h ++ [e]) ++ rest from by simp]
    refine ih (h := h ++ [e]) ?_ ?_
    · rw [List.length_append]
      omega
    · rw [List.append_assoc]
      exact hn

/-- **The merge loop of `HandleAppendEntries`.** The receiver's history agrees with the
leader's log `g` up to `p`, and wherever the two carry the same term at an index they agree
up to it. Offered the rest of `g`, the receiver keeps its log if that already starts with
`g`, and otherwise ends up with `g`. -/
theorem mergeEntries_render (hg : Numbered g)
    (hagree : ∀ (k : Nat) (e e' : LogEntry), h[k]? = some e → g[k]? = some e' →
      e.term = e'.term → h.take (k + 1) = g.take (k + 1)) {p : Nat} (hb : b ≤ p)
    (hph : p ≤ h.length) (hpg : p ≤ g.length) (heq : h.take p = g.take p) :
    (render h b).mergeEntries (g.drop p) (p + 1) =
      if g <+: h then (render h b, false) else (render g b, true) := by
  -- induction on the entries still to be offered
  obtain ⟨k, hk⟩ : ∃ k, k = g.length - p := ⟨_, rfl⟩
  induction k generalizing p with
  -- all of them were found in the receiver's log
  | zero =>
    have hp : p = g.length := by omega
    rw [hp, List.take_length] at heq
    rw [if_pos (heq ▸ List.take_prefix _ _), hp, List.drop_length]
    rfl
  | succ k ih =>
    obtain ⟨e, he⟩ : ∃ e, g[p]? = some e := ⟨_, List.getElem?_eq_getElem (by omega)⟩
    -- the next entry that is offered
    have hdrop : g.drop p = e :: g.drop (p + 1) := by
      rw [List.drop_eq_getElem_cons (by omega)]
      rw [List.getElem?_eq_getElem (by omega), Option.some.injEq] at he
      rw [he]
    have hsplice : h.take p ++ g.drop p = g := by rw [heq, List.take_append_drop]
    rw [hdrop]
    unfold Log.mergeEntries
    rw [show ((p : Int) + 1) = ((p + 1 : Nat) : Int) from by omega, entryAt_render (by omega),
      show p + 1 - 1 = p from by omega]
    rcases hh : h[p]? with _ | x
    · -- the receiver's history ends here: everything left is new
      have hlen : h.length = p := by
        have := List.getElem?_eq_none_iff.mp hh
        omega
      have htake : h.take p = h := List.take_of_length_le (by omega)
      rw [htake] at hsplice
      rw [if_neg (fun hpre => by have := hpre.length_le; omega)]
      show ((render h b).appendEntriesLocked (e :: g.drop (p + 1)) ((p + 1 : Nat) : Int), true) = _
      rw [← hdrop, show ((p + 1 : Nat) : Int) = (h.length : Int) + 1 from by omega,
        appendEntries_render (by omega) (by rw [hsplice]; exact hg), hsplice]
    · show (if x.term ≠ e.term then _ else _) = _
      by_cases hterm : x.term = e.term
      · -- the same term: both hold the same entry, and the loop goes on
        rw [if_neg (by simpa using hterm)]
        have hplt := (List.getElem?_eq_some_iff.mp hh).1
        exact ih (p := p + 1) (by omega) (by omega) (by omega) (hagree p x e hh he hterm) (by omega)
      · -- a conflict: the receiver's suffix gives way
        rw [if_pos hterm]
        have hplt := (List.getElem?_eq_some_iff.mp hh).1
        have hnot : ¬ g <+: h := by
          intro hpre
          have := getElem?_of_isPrefix hpre he
          rw [hh, Option.some.injEq] at this
          exact hterm (this ▸ rfl)
        have hsi : (render h b).sliceIndexLocked ((p + 1 : Nat) : Int) = (p : Int) - b + 1 := by
          unfold Log.sliceIndexLocked
          rw [show (render h b).head.index = (b : Int) from rfl]
          omega
        have hlen : (h.take p).length = p := by rw [List.length_take]; omega
        rw [if_neg hnot]
        show (((render h b).truncate (if (render h b).sliceIndexLocked _ < 1 then 1 else _)
          ).appendEntriesLocked (e :: g.drop (p + 1)) _, true) = _
        rw [hsi, if_neg (by omega), truncate_render hb, ← hdrop,
          show ((p + 1 : Nat) : Int) = ((h.take p).length : Int) + 1 from by omega,
          appendEntries_render (by omega) (by rw [hsplice]; exact hg), hsplice]

end Refine
