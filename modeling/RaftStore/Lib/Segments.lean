import Mathlib.Data.List.Induction
import RaftStore.Lib.Percent

/-!
# Paths and their segments

A path is a byte string whose segments stand behind slashes (`join`).

* **`cleanSegments`** drops the empty segments and `.`, and takes `..` back one segment;
* **`cleanPath`** does so with a rooted path and keeps a slash at its end;
* what `cleanPath` leaves is made of proper segments (`cleanPath_cases`). A path of this kind is
  clean already (`cleanPath_join`, `cleanPath_join_slash`), and so is the encoding of one
  (`cleanPath_escape_cleanPath`);
* an encoded path may be read segment by segment (`unescape_of_mem_splitOn`).
-/

namespace Segments

open Percent

def slash : UInt8 := 0x2F

/-- `.` -/
def dot : List UInt8 := [0x2E]

/-- `..` -/
def dots : List UInt8 := [0x2E, 0x2E]

/-- One more segment behind those that are left. -/
def cleanNext (out : List (List UInt8)) (seg : List UInt8) : List (List UInt8) :=
  if seg = [] ∨ seg = dot then out else if seg = dots then out.dropLast else out ++ [seg]

def cleanSegments (segs : List (List UInt8)) : List (List UInt8) := segs.foldl cleanNext []

/-- The segments, each behind a slash. -/
def join (segs : List (List UInt8)) : List UInt8 := segs.flatMap (slash :: ·)

/-- The path without empty and dot segments, rooted. A slash at the end stays. -/
def cleanPath (p : List UInt8) : List UInt8 :=
  let np := join (cleanSegments (p.splitOn slash))
  if np = [] then [slash] else if p.getLast? = some slash then np ++ [slash] else np

/-- A segment that is read as a name. -/
structure Proper (seg : List UInt8) : Prop where
  nonempty : seg ≠ []
  dot : seg ≠ dot
  dots : seg ≠ dots
  slash : slash ∉ seg

variable {p seg : List UInt8} {segs : List (List UInt8)}

/-! ## Cleaning -/

theorem cleanSegments_snoc (segs : List (List UInt8)) (seg : List UInt8) :
    cleanSegments (segs ++ [seg]) = cleanNext (cleanSegments segs) seg := by
  unfold cleanSegments
  rw [List.foldl_append]
  rfl

/-- What is left was there, and is no dot segment. -/
theorem mem_cleanSegments (h : seg ∈ cleanSegments segs) :
    seg ∈ segs ∧ seg ≠ [] ∧ seg ≠ dot ∧ seg ≠ dots := by
  induction segs using List.reverseRecOn with
  | nil => cases h
  | append_singleton segs last ih =>
    have hold : seg ∈ cleanSegments segs →
        seg ∈ segs ++ [last] ∧ seg ≠ [] ∧ seg ≠ dot ∧ seg ≠ dots := by
      intro hmem
      obtain ⟨hin, hrest⟩ := ih hmem
      exact ⟨List.mem_append_left _ hin, hrest⟩
    rw [cleanSegments_snoc] at h
    unfold cleanNext at h
    split at h
    -- nothing, one segment less, or the last one more
    · exact hold h
    next hkept =>
    split at h
    · exact hold (List.dropLast_subset _ h)
    next hdots =>
    rcases List.mem_append.mp h with h | h
    · exact hold h
    · obtain rfl := List.mem_singleton.mp h
      rw [not_or] at hkept
      exact ⟨by simp, hkept.1, hkept.2, hdots⟩

theorem cleanSegments_of_proper (h : ∀ seg ∈ segs, Proper seg) : cleanSegments segs = segs := by
  induction segs using List.reverseRecOn with
  | nil => rfl
  | append_singleton segs last ih =>
    have hlast := h last (by simp)
    rw [cleanSegments_snoc, ih (fun seg hseg => h seg (by simp [hseg]))]
    unfold cleanNext
    rw [if_neg (not_or.mpr ⟨hlast.nonempty, hlast.dot⟩), if_neg hlast.dots]

/-- An empty segment in front, as in every rooted path, is dropped. -/
theorem cleanSegments_root (segs : List (List UInt8)) :
    cleanSegments ([] :: segs) = cleanSegments segs := rfl

/-! ## Splitting -/

section Split

variable {α : Type} [DecidableEq α] {sep : α} {part : List α}

theorem splitOn_append_sep (h : sep ∉ part) (rest : List α) :
    (part ++ sep :: rest).splitOn sep = part :: rest.splitOn sep := by
  have hnot : ∀ b ∈ part, (b == sep) = false :=
    fun b hb => beq_eq_false_iff_ne.mpr (fun heq => h (heq ▸ hb))
  exact List.splitOnP_append_cons_of_forall_mem hnot sep (by simp) rest

theorem splitOn_of_notMem (h : sep ∉ part) : part.splitOn sep = [part] :=
  List.splitOnP_eq_singleton (fun _ hb => beq_eq_false_iff_ne.mpr (fun heq => h (heq ▸ hb)))

end Split

/-! ## Joining -/

theorem join_cons (seg : List UInt8) (segs : List (List UInt8)) :
    join (seg :: segs) = slash :: (seg ++ join segs) := rfl

theorem join_snoc_nil (segs : List (List UInt8)) : join (segs ++ [[]]) = join segs ++ [slash] := by
  unfold join
  rw [List.flatMap_append]
  rfl

/-- A segment ends where the next one begins. -/
theorem splitOn_append_join (hseg : slash ∉ seg) (h : ∀ seg ∈ segs, slash ∉ seg) :
    (seg ++ join segs).splitOn slash = seg :: segs := by
  induction segs generalizing seg with
  | nil =>
    show (seg ++ []).splitOn slash = [seg]
    rw [List.append_nil, splitOn_of_notMem hseg]
  | cons next segs ih =>
    rw [join_cons, splitOn_append_sep hseg,
      ih (h next List.mem_cons_self) (fun s hs => h s (List.mem_cons_of_mem _ hs))]

theorem splitOn_join (hne : segs ≠ []) (h : ∀ seg ∈ segs, slash ∉ seg) :
    (join segs).splitOn slash = [] :: segs := by
  cases segs with
  | nil => exact absurd rfl hne
  | cons seg segs =>
    have hroot : slash ∉ ([] : List UInt8) := List.not_mem_nil
    exact splitOn_append_join hroot h

/-- Every string is made of segments. -/
theorem exists_segments (p : List UInt8) : ∃ seg segs, p = seg ++ join segs ∧ slash ∉ seg ∧
    ∀ s ∈ segs, slash ∉ s := by
  induction p with
  | nil => exact ⟨[], [], rfl, by simp, by simp⟩
  | cons b p ih =>
    obtain ⟨seg, segs, rfl, hseg, hsegs⟩ := ih
    by_cases hb : b = slash
    -- a slash starts a new segment
    · subst hb
      refine ⟨[], seg :: segs, rfl, by simp, fun s hs => ?_⟩
      rcases List.mem_cons.mp hs with rfl | hs
      · exact hseg
      · exact hsegs s hs
    -- another byte belongs to the first one
    · exact ⟨b :: seg, segs, rfl, fun hmem => (List.mem_cons.mp hmem).elim (hb ·.symm) hseg, hsegs⟩

theorem slash_notMem_of_mem_splitOn (h : seg ∈ p.splitOn slash) : slash ∉ seg := by
  obtain ⟨first, segs, rfl, hfirst, hsegs⟩ := exists_segments p
  rw [splitOn_append_join hfirst hsegs] at h
  rcases List.mem_cons.mp h with rfl | h
  · exact hfirst
  · exact hsegs seg h

/-! ## Clean paths -/

theorem join_ne_nil (h : segs ≠ []) : join segs ≠ [] := by
  cases segs with
  | nil => exact absurd rfl h
  | cons seg segs => exact List.cons_ne_nil _ _

/-- A path does not end in a slash if its last segment is a proper one. -/
theorem getLast?_join (hne : segs ≠ []) (h : ∀ seg ∈ segs, Proper seg) :
    (join segs).getLast? ≠ some slash := by
  obtain ⟨front, last, rfl⟩ : ∃ front last, segs = front ++ [last] :=
    ⟨_, _, (List.dropLast_append_getLast hne).symm⟩
  have hlast := h last (by simp)
  have hsplit : join (front ++ [last]) = (join front ++ [slash]) ++ last := by
    unfold join
    rw [List.flatMap_append]
    simp
  rw [hsplit, List.getLast?_append_of_ne_nil _ hlast.nonempty]
  exact fun heq => hlast.slash (List.mem_of_getLast? heq)

theorem cleanPath_join (hne : segs ≠ []) (h : ∀ seg ∈ segs, Proper seg) :
    cleanPath (join segs) = join segs := by
  unfold cleanPath
  rw [splitOn_join hne (fun seg hseg => (h seg hseg).slash), cleanSegments_root,
    cleanSegments_of_proper h]
  dsimp only
  rw [if_neg (join_ne_nil hne), if_neg (getLast?_join hne h)]

theorem cleanPath_join_slash (hne : segs ≠ []) (h : ∀ seg ∈ segs, Proper seg) :
    cleanPath (join segs ++ [slash]) = join segs ++ [slash] := by
  have hslash : ∀ seg ∈ segs ++ [[]], slash ∉ seg := by
    intro seg hseg
    rcases List.mem_append.mp hseg with hseg | hseg
    · exact (h seg hseg).slash
    · obtain rfl := List.mem_singleton.mp hseg
      simp
  have hclean : cleanSegments (segs ++ [[]]) = segs := by
    rw [cleanSegments_snoc, cleanSegments_of_proper h]
    exact if_pos (Or.inl rfl)
  unfold cleanPath
  rw [← join_snoc_nil, splitOn_join (by simp) hslash, cleanSegments_root, hclean]
  dsimp only
  rw [if_neg (join_ne_nil hne), join_snoc_nil, if_pos (by simp)]

/-- **A cleaned path** is the root, or proper segments of the path with or without a slash at the
end. -/
theorem cleanPath_cases (p : List UInt8) : cleanPath p = [slash] ∨
    ∃ segs, segs ≠ [] ∧ (∀ seg ∈ segs, seg ∈ p.splitOn slash ∧ Proper seg) ∧
      (cleanPath p = join segs ∨ cleanPath p = join segs ++ [slash]) := by
  unfold cleanPath
  dsimp only
  split
  · exact Or.inl rfl
  next hsome =>
  refine Or.inr ⟨cleanSegments (p.splitOn slash), fun hnil => hsome (by rw [hnil]; rfl),
    fun seg hseg => ?_, ?_⟩
  · obtain ⟨hmem, hnonempty, hdot, hdots⟩ := mem_cleanSegments hseg
    exact ⟨hmem, hnonempty, hdot, hdots, slash_notMem_of_mem_splitOn hmem⟩
  · split
    · exact Or.inr rfl
    · exact Or.inl rfl

/-- A clean path of two segments. -/
theorem eq_join_of_clean {a first : List UInt8} (hclean : cleanPath p = p)
    (hsplit : p.splitOn slash = [a, first, seg]) (hne : seg ≠ []) :
    p = join [first, seg] ∧ Proper first ∧ Proper seg := by
  rcases cleanPath_cases p with heq | ⟨segs, hsegs, hall, heq | heq⟩
  -- the root has fewer segments
  · rw [← hclean, heq] at hsplit
    cases hsplit
  · have hproper : ∀ s ∈ segs, Proper s := fun s hs => (hall s hs).2
    rw [← hclean, heq, splitOn_join hsegs (fun s hs => (hproper s hs).slash)] at hsplit
    cases hsplit
    exact ⟨hclean.symm.trans heq, hproper _ (by simp), hproper _ (by simp)⟩
  · -- behind the slash at the end stands an empty segment
    have hslash : ∀ s ∈ segs ++ [[]], slash ∉ s := by
      intro s hs
      rcases List.mem_append.mp hs with hs | hs
      · exact (hall s hs).2.slash
      · obtain rfl := List.mem_singleton.mp hs
        simp
    rw [← hclean, heq, ← join_snoc_nil, splitOn_join (by simp) hslash] at hsplit
    have hlast : ([] :: (segs ++ [[]])).getLast? = some seg := by rw [hsplit]; rfl
    rw [← List.cons_append, List.getLast?_concat] at hlast
    exact absurd (Option.some.inj hlast).symm hne

/-! ## Encodings -/

variable {keep : UInt8 → Bool}

theorem escape_join (hslash : keep slash = true) (segs : List (List UInt8)) :
    escape keep (join segs) = join (segs.map (escape keep)) := by
  induction segs with
  | nil => rfl
  | cons seg segs ih =>
    have hroot : escape keep [slash] = [slash] := escape_of_kept (by simpa using hslash)
    rw [join_cons, List.map_cons, join_cons, ← List.singleton_append, escape_append, escape_append,
      ih, hroot]
    rfl

/-- A segment of a string is read by itself, and stands for less than the string does unless it is
all of it. -/
theorem unescape_of_mem_splitOn {ds : List UInt8} (h : unescape p = some ds)
    (hseg : seg ∈ p.splitOn slash) :
    ∃ x, unescape seg = some x ∧ (x.length < ds.length ∨ p = seg) := by
  obtain ⟨first, segs, rfl, hfirst, hsegs⟩ := exists_segments p
  rw [splitOn_append_join hfirst hsegs] at hseg
  induction segs generalizing first ds with
  | nil =>
    obtain rfl := List.mem_singleton.mp hseg
    replace h : unescape (seg ++ []) = some ds := h
    rw [List.append_nil] at h
    exact ⟨ds, h, Or.inr (List.append_nil _)⟩
  | cons next segs ih =>
    rw [join_cons] at h
    obtain ⟨x, y, hx, hy, rfl⟩ := exists_of_unescape_slash h
    -- in the first segment, or behind the slash
    rcases List.mem_cons.mp hseg with rfl | hseg
    · exact ⟨x, hx, Or.inl (by simp)⟩
    · have hnext : slash ∉ next := hsegs next List.mem_cons_self
      obtain ⟨z, hz, hlt | heq⟩ := ih next hy hseg hnext
        (fun s hs => hsegs s (List.mem_cons_of_mem _ hs))
      · exact ⟨z, hz, Or.inl (by simp; omega)⟩
      · rw [heq] at hy
        exact ⟨y, hy, Or.inl (by simp; omega)⟩

/-- Only a dot segment is encoded as one. -/
theorem Proper.escape (h : Proper seg) (hkeep : keep 0x25 = false) : Proper (escape keep seg) := by
  have hback : unescape (Percent.escape keep seg) = some seg := unescape_escape hkeep seg
  have hself : ∀ s : List UInt8, unescape s = some s → Percent.escape keep seg = s → seg = s := by
    intro s hs heq
    rw [heq, hs] at hback
    exact (Option.some.inj hback).symm
  exact ⟨fun heq => h.nonempty (hself [] rfl heq), fun heq => h.dot (hself _ rfl heq),
    fun heq => h.dots (hself _ rfl heq), fun hmem => h.slash (slash_mem_of_escape hmem)⟩

/-- **The encoding of a clean path is clean.** -/
theorem cleanPath_escape_cleanPath (hkeep : keep 0x25 = false) (hslash : keep slash = true)
    (p : List UInt8) : cleanPath (escape keep (cleanPath p)) = escape keep (cleanPath p) := by
  have hroot : escape keep [slash] = [slash] := escape_of_kept (by simpa using hslash)
  rcases cleanPath_cases p with heq | ⟨segs, hne, hsegs, heq | heq⟩
  · rw [heq, hroot]
    rfl
  -- encoded segments are proper too
  all_goals
    have hproper : ∀ seg ∈ segs.map (escape keep), Proper seg := by
      intro seg hseg
      obtain ⟨s, hs, rfl⟩ := List.mem_map.mp hseg
      exact (hsegs s hs).2.escape hkeep
  · rw [heq, escape_join hslash]
    exact cleanPath_join (by simpa using hne) hproper
  · rw [heq, escape_append, hroot, escape_join hslash]
    exact cleanPath_join_slash (by simpa using hne) hproper

end Segments
