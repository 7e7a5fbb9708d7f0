import Mathlib.Data.List.Sort
import Mathlib.Data.Prod.Lex
import Mathlib.Order.WithBot

/-!
# Linearizations of a log

Operations of type `O` act on one log. Each that has taken effect is a write, which is an entry of
type `E`, or a read, known by its key in `K`; `precedes o o'` says that `o` was over before `o'`
began. A **linearization** is one sequence of writes and reads in which every read finds exactly
what was written before it and in which operations stand in the order they had in time.

The log itself provides one. Say where every read looked: at the first `seen k` entries of the log
(`Positions`). Then sorting writes and reads by position (`rank`) gives a linearization, provided
that positions agree with time (`Positions.linearization`).
-/

namespace Linear

variable {O E K σ : Type} {e : E} {k : K}

/-- One step of a sequential history. -/
inductive Access (E K : Type)
  | write (e : E)
  | read (k : K)
  deriving DecidableEq

/-- What has been written, in order. -/
def writes : List (Access E K) → List E
  | [] => []
  | .write e :: L => e :: writes L
  | .read _ :: L => writes L

/-- The writes of two lists. -/
theorem writes_append (L L' : List (Access E K)) : writes (L ++ L') = writes L ++ writes L' := by
  induction L with
  | nil => rfl
  | cons x L ih =>
    cases x with
    | write e => simp [writes, ih]
    | read k => simp [writes, ih]

/-- A write is among the writes. -/
theorem mem_writes {L : List (Access E K)} : e ∈ writes L ↔ .write e ∈ L := by
  induction L with
  | nil => simp [writes]
  | cons x L ih =>
    cases x with
    | write e' => simp [writes, ih]
    | read k => simp [writes, ih]

/-- Reordering accesses reorders the writes. -/
theorem writes_perm {L L' : List (Access E K)} (h : L.Perm L') : (writes L).Perm (writes L') := by
  induction h with
  | nil => exact .refl _
  | cons x _ ih =>
    cases x with
    | write e => exact ih.cons e
    | read k => exact ih
  -- two reads, or a read and a write, do not change the order of the writes
  | swap x y L =>
    cases x with
    | write e =>
      cases y with
      | write e' => exact .swap e e' _
      | read k => exact .refl _
    | read k => cases y <;> exact .refl _
  | trans _ _ ih ih' => exact ih.trans ih'

/-- The writes of a log that is followed by reads are the log. -/
theorem writes_log (H : List E) (ks : List K) :
    writes (H.map .write ++ ks.map .read : List (Access E K)) = H := by
  have hreads : writes (ks.map .read : List (Access E K)) = [] := by
    induction ks with
    | nil => rfl
    | cons k ks ih => exact ih
  rw [writes_append, hreads, List.append_nil]
  induction H with
  | nil => rfl
  | cons e H ih => exact congrArg (e :: ·) ih

/-- **A linearization.** `event o` is what operation `o` did, if it took effect, and `answer k` is
what read `k` has returned. -/
structure Linearization (replay : List E → σ) (answer : K → Option σ)
    (event : O → Option (Access E K)) (precedes : O → O → Prop) (L : List (Access E K)) : Prop where
  nodup : L.Nodup
  complete : ∀ o x, event o = some x → x ∈ L
  distinct : ∀ o o' x, event o = some x → event o' = some x → o = o'
  answers : ∀ L₁ k L₂, L = L₁ ++ .read k :: L₂ → answer k = some (replay (writes L₁))
  order : ∀ o o' x x', precedes o o' → event o = some x → event o' = some x' →
    [x, x'].Sublist L

/-! ## Positions -/

variable [LinearOrder K] {index : E → Nat} {seen : K → Nat}

/-- A write stands at its index. The reads of a position come after the write there, in the order
of their keys. -/
def rank (index : E → Nat) (seen : K → Nat) : Access E K → Nat ×ₗ WithBot K
  | .write e => toLex (index e, ⊥)
  | .read k => toLex (seen k, k)

theorem rank_write_lt_write {e e' : E} :
    rank (K := K) index seen (.write e) < rank index seen (.write e') ↔ index e < index e' := by
  simp [rank, Prod.Lex.toLex_lt_toLex]

theorem rank_write_lt_read :
    rank index seen (.write e) < rank index seen (.read k) ↔ index e ≤ seen k := by
  simp [rank, Prod.Lex.toLex_lt_toLex, le_iff_lt_or_eq]

theorem rank_read_lt_write :
    rank index seen (.read k) < rank index seen (.write e) ↔ seen k < index e := by
  simp [rank, Prod.Lex.toLex_lt_toLex]

theorem rank_read_lt_read {k k' : K} : rank index seen (.read k : Access E K) <
    rank index seen (.read k') ↔ seen k < seen k' ∨ seen k = seen k' ∧ k < k' := by
  simp [rank, Prod.Lex.toLex_lt_toLex]

/-- Where the operations took effect: the log `H`, numbered from one, and for every read in `ks` how
much of the log it saw. -/
structure Positions (replay : List E → σ) (answer : K → Option σ)
    (event : O → Option (Access E K)) (precedes : O → O → Prop) (index : E → Nat) (H : List E)
    (ks : List K) (seen : K → Nat) : Prop where
  numbered : ∀ i e, H[i]? = some e → index e = i + 1
  nodup : ks.Nodup
  answers : ∀ k ∈ ks, seen k ≤ H.length ∧ answer k = some (replay (H.take (seen k)))
  logged : ∀ o e, event o = some (.write e) → e ∈ H
  listed : ∀ o k, event o = some (.read k) → k ∈ ks
  distinct : ∀ o o' x, event o = some x → event o' = some x → o = o'
  order : ∀ o o' x x', precedes o o' → event o = some x → event o' = some x' →
    rank index seen x < rank index seen x'

/-! ## Sorting by position -/

/-- In a sorted list the smaller element comes first. -/
theorem sublist_of_rank_lt {L : List (Access E K)}
    (hL : L.Pairwise (fun x y => rank index seen x ≤ rank index seen y)) {x x' : Access E K}
    (hx : x ∈ L) (hx' : x' ∈ L) (hlt : rank index seen x < rank index seen x') :
    [x, x'].Sublist L := by
  obtain ⟨L₁, L₂, rfl⟩ := List.append_of_mem hx
  have hafter : x' ∈ L₂ := by
    -- it does not stand before `x`, where nothing has a higher rank
    rcases List.mem_append.mp hx' with hmem | hmem
    · have := (List.pairwise_append.mp hL).2.2 x' hmem x List.mem_cons_self
      exact absurd hlt this.not_gt
    · rcases List.mem_cons.mp hmem with rfl | hmem
      · exact absurd hlt (lt_irrefl _)
      · exact hmem
  exact ((List.singleton_sublist.mpr hafter).cons_cons x).trans (List.sublist_append_right _ _)

/-- A numbered list is in ascending order. -/
theorem pairwise_of_numbered {H : List E} (hnum : ∀ i e, H[i]? = some e → index e = i + 1) :
    H.Pairwise (fun e e' => index e < index e') := by
  rw [List.pairwise_iff_getElem]
  intro i j hi hj hij
  rw [hnum i _ (List.getElem?_eq_getElem hi), hnum j _ (List.getElem?_eq_getElem hj)]
  omega

/-- Two parts of a numbered list, the first with the indexes up to `n` and the second with the
others. -/
theorem take_of_numbered {A B : List E} (hnum : ∀ i e, (A ++ B)[i]? = some e → index e = i + 1)
    {n : Nat} (hn : n ≤ (A ++ B).length) (hA : ∀ e ∈ A, index e ≤ n) (hB : ∀ e ∈ B, n < index e) :
    A = (A ++ B).take n := by
  -- the last of `A` has the index `A.length`
  have hle : A.length ≤ n := by
    rcases Nat.eq_zero_or_pos A.length with h0 | hpos
    · omega
    · have hget := List.getElem?_eq_getElem (l := A) (i := A.length - 1) (by omega)
      have hidx := hnum (A.length - 1) _ (by rw [List.getElem?_append_left (by omega)]; exact hget)
      have := hA _ (List.mem_of_getElem? hget)
      omega
  -- the first of `B` has the next one
  have hge : n ≤ A.length := by
    by_contra hlt
    rw [List.length_append] at hn
    have hget := List.getElem?_eq_getElem (l := B) (i := 0) (by omega)
    have hidx := hnum A.length _ (by rw [List.getElem?_append_right (le_refl _), Nat.sub_self]
                                     exact hget)
    have := hB _ (List.mem_of_getElem? hget)
    omega
  rw [show n = A.length by omega, List.take_left]

/-- Writes and reads in the order of their positions. -/
def merge (index : E → Nat) (seen : K → Nat) (H : List E) (ks : List K) : List (Access E K) :=
  (H.map Access.write ++ ks.map Access.read).insertionSort
    (fun x y => rank index seen x ≤ rank index seen y)

section Merge

variable {H : List E} {ks : List K}

theorem merge_perm : (merge index seen H ks).Perm (H.map Access.write ++ ks.map Access.read) :=
  List.perm_insertionSort _ _

/-- The merged list is sorted. -/
theorem merge_sorted :
    (merge index seen H ks).Pairwise (fun x y => rank index seen x ≤ rank index seen y) := by
  have htrans : IsTrans (Access E K) (fun x y => rank index seen x ≤ rank index seen y) :=
    ⟨fun _ _ _ => le_trans⟩
  have htotal : Std.Total (fun x y : Access E K => rank index seen x ≤ rank index seen y) :=
    ⟨fun x y => le_total (rank index seen x) (rank index seen y)⟩
  exact List.pairwise_insertionSort _ _

theorem write_mem_merge : .write e ∈ merge index seen H ks ↔ e ∈ H := by
  rw [merge_perm.mem_iff]
  simp

theorem read_mem_merge : .read k ∈ merge index seen H ks ↔ k ∈ ks := by
  rw [merge_perm.mem_iff]
  simp

/-- Nothing is listed twice. -/
theorem nodup_merge (hH : H.Nodup) (hks : ks.Nodup) : (merge index seen H ks).Nodup := by
  rw [merge_perm.nodup_iff]
  refine (hH.map ?_).append (hks.map ?_) ?_
  · intro e e' heq
    injection heq
  · intro k k' heq
    injection heq
  · intro x hx hx'
    obtain ⟨e, _, rfl⟩ := List.mem_map.mp hx
    obtain ⟨k, _, heq⟩ := List.mem_map.mp hx'
    cases heq

/-- The writes are in ascending order. -/
theorem pairwise_writes {L : List (Access E K)}
    (hL : L.Pairwise (fun x y => rank index seen x ≤ rank index seen y)) :
    (writes L).Pairwise (fun e e' => index e ≤ index e') := by
  induction L with
  | nil => exact .nil
  | cons x L ih =>
    obtain ⟨hx, hrest⟩ := List.pairwise_cons.mp hL
    cases x with
    | read k => exact ih hrest
    | write e =>
      -- a later write has no lower index
      refine List.pairwise_cons.mpr ⟨fun e' he' => ?_, ih hrest⟩
      by_contra hgt
      exact absurd (hx _ (mem_writes.mp he')) (rank_write_lt_write.mpr (not_le.mp hgt)).not_ge

/-- What is written is the log. -/
theorem writes_merge (hnum : ∀ i e, H[i]? = some e → index e = i + 1) :
    writes (merge index seen H ks) = H := by
  have hnumbered : H.Pairwise (fun e e' => index e ≤ index e') :=
    (pairwise_of_numbered hnum).imp le_of_lt
  refine List.Perm.eq_of_pairwise ?_ (pairwise_writes merge_sorted) hnumbered ?_
  · -- entries of the same index are the same
    intro e e' he he' hle hge
    obtain ⟨i, hi⟩ := List.getElem?_of_mem (write_mem_merge.mp (mem_writes.mp he))
    obtain ⟨j, hj⟩ := List.getElem?_of_mem he'
    have h1 := hnum i e hi
    have h2 := hnum j e' hj
    obtain rfl : i = j := by omega
    exact Option.some.inj (hi.symm.trans hj)
  · have hperm : (merge index seen H ks).Perm _ := merge_perm
    have hwrites := writes_perm hperm
    rwa [writes_log] at hwrites

/-- A read finds the part of the log that it saw. -/
theorem writes_before (hnum : ∀ i e, H[i]? = some e → index e = i + 1) {L₁ L₂ : List (Access E K)}
    (hk : seen k ≤ H.length) (hsplit : merge index seen H ks = L₁ ++ .read k :: L₂) :
    writes L₁ = H.take (seen k) := by
  have hH : writes L₁ ++ writes L₂ = H := by
    have hall : writes (merge index seen H ks) = H := writes_merge hnum
    rwa [hsplit, writes_append] at hall
  obtain ⟨_, hL₂, hacross⟩ := List.pairwise_append.mp (hsplit ▸ merge_sorted)
  subst hH
  refine take_of_numbered hnum hk (fun e he => ?_) (fun e he => ?_)
  -- the writes before the read have been seen by it
  · by_contra hgt
    exact absurd (hacross _ (mem_writes.mp he) _ List.mem_cons_self)
      (rank_read_lt_write.mpr (not_le.mp hgt)).not_ge
  -- and those after it have not
  · by_contra hle
    exact absurd ((List.pairwise_cons.mp hL₂).1 _ (mem_writes.mp he))
      (rank_write_lt_read.mpr (not_lt.mp hle)).not_ge

end Merge

/-- **The log is a linearization**, if positions agree with time. -/
theorem Positions.linearization {replay : List E → σ} {answer : K → Option σ}
    {event : O → Option (Access E K)} {precedes : O → O → Prop} {H : List E} {ks : List K}
    (h : Positions replay answer event precedes index H ks seen) :
    Linearization replay answer event precedes (merge index seen H ks) := by
  have hH : H.Nodup := (pairwise_of_numbered h.numbered).imp fun hlt heq => by
    rw [heq] at hlt
    exact lt_irrefl _ hlt
  have hmem : ∀ o x, event o = some x → x ∈ merge index seen H ks := by
    intro o x ho
    cases x with
    | write e => exact write_mem_merge.mpr (h.logged o e ho)
    | read k => exact read_mem_merge.mpr (h.listed o k ho)
  -- nothing twice, everything listed, no two operations with one access
  refine ⟨nodup_merge hH h.nodup, hmem, h.distinct, ?_, ?_⟩
  -- a read answers with the replay of what is before it
  · intro L₁ k L₂ hsplit
    have hk : Access.read k ∈ merge index seen H ks := by
      rw [hsplit]
      simp
    obtain ⟨hle, hans⟩ := h.answers k (read_mem_merge.mp hk)
    rw [hans, writes_before h.numbered hle hsplit]
  -- operations in real-time order stand in that order
  · intro o o' x x' hprec ho ho'
    exact sublist_of_rank_lt merge_sorted (hmem o x ho) (hmem o' x' ho')
      (h.order o o' x x' hprec ho ho')

end Linear
