import Mathlib.Data.List.Basic

/-!
# Percent-encoding

Byte strings in which a byte may be written as `%` and two hexadecimal digits.

* **`unescape`** reads such a string, and fails at a `%` without two digits behind it;
* **`escape keep`** writes one, leaving the bytes of `keep` as they are;
* **`unescape_escape`**: what was written is read back, if `%` itself is not kept.
-/

namespace Percent

/-! ## Digits -/

/-- The value of a hexadecimal digit. -/
def unhex (b : UInt8) : Option UInt8 :=
  if 0x30 ≤ b ∧ b ≤ 0x39 then some (b - 0x30)
  else if 0x61 ≤ b ∧ b ≤ 0x66 then some (b - 0x61 + 10)
  else if 0x41 ≤ b ∧ b ≤ 0x46 then some (b - 0x41 + 10)
  else none

/-- The digit of a value below 16. -/
def hex (d : UInt8) : UInt8 := if d < 10 then 0x30 + d else 0x41 + (d - 10)

/-- The two digits of a byte. -/
def digits (b : UInt8) : UInt8 × UInt8 := (hex (b / 16), hex (b % 16))

/-- The byte of two digits. -/
def byteOf (h l : UInt8) : Option UInt8 :=
  (unhex h).bind (fun x => (unhex l).map (fun y => x * 16 + y))

theorem byteOf_digits (b : UInt8) : byteOf (digits b).1 (digits b).2 = some b := by
  have hall : ∀ i : Fin 256, byteOf (digits (UInt8.ofFin i)).1 (digits (UInt8.ofFin i)).2 =
      some (UInt8.ofFin i) := by decide +kernel
  exact hall b.toFin

theorem digits_ne_slash (b : UInt8) : (digits b).1 ≠ 0x2F ∧ (digits b).2 ≠ 0x2F := by
  have hall : ∀ i : Fin 256, (digits (UInt8.ofFin i)).1 ≠ 0x2F ∧
      (digits (UInt8.ofFin i)).2 ≠ 0x2F := by decide +kernel
  exact hall b.toFin

/-! ## Strings -/

/-- Decoding. A `%` must be followed by two hexadecimal digits. -/
def unescape : List UInt8 → Option (List UInt8)
  | [] => some []
  | b :: rest =>
    if b = 0x25 then
      match rest with
      | h :: l :: rest => (byteOf h l).bind (fun c => (unescape rest).map (c :: ·))
      | _ => none
    else (unescape rest).map (b :: ·)

/-- Encoding: what is not kept becomes `%` and two digits. -/
def escape (keep : UInt8 → Bool) (bs : List UInt8) : List UInt8 :=
  bs.flatMap (fun b => if keep b then [b] else [0x25, (digits b).1, (digits b).2])

variable {keep : UInt8 → Bool} {bs cs ds : List UInt8}

@[simp] theorem unescape_nil : unescape [] = some [] := by rw [unescape]

theorem unescape_cons {b : UInt8} (h : b ≠ 0x25) (bs : List UInt8) :
    unescape (b :: bs) = (unescape bs).map (b :: ·) := by
  conv_lhs => unfold unescape
  rw [if_neg h]

theorem unescape_digits (b : UInt8) (bs : List UInt8) :
    unescape (0x25 :: (digits b).1 :: (digits b).2 :: bs) = (unescape bs).map (b :: ·) := by
  rw [unescape, if_pos rfl, byteOf_digits, Option.bind_some]

theorem unescape_append (h : ∀ b ∈ bs, b ≠ 0x25) (cs : List UInt8) :
    unescape (bs ++ cs) = (unescape cs).map (bs ++ ·) := by
  induction bs with
  | nil => simp
  | cons b rest ih =>
    rw [List.cons_append, unescape_cons (h b List.mem_cons_self),
      ih (fun c hc => h c (List.mem_cons_of_mem _ hc)), Option.map_map]
    rfl

/-- A string may be read piece by piece. -/
theorem unescape_append_of_eq_some (h : unescape bs = some ds) (cs : List UInt8) :
    unescape (bs ++ cs) = (unescape cs).map (ds ++ ·) := by
  fun_induction unescape bs generalizing ds with
  | case1 =>
    cases h
    simp
  -- an encoded byte
  | case2 a b rest ih =>
    obtain ⟨c, hc, hrest⟩ := Option.bind_eq_some_iff.mp h
    obtain ⟨ds, hds, rfl⟩ := Option.map_eq_some_iff.mp hrest
    show unescape (0x25 :: a :: b :: (rest ++ cs)) = _
    rw [unescape, if_pos rfl, hc, Option.bind_some, ih hds, Option.map_map]
    rfl
  | case3 => cases h
  | case4 b rest hb ih =>
    obtain ⟨ds, hds, rfl⟩ := Option.map_eq_some_iff.mp h
    rw [List.cons_append, unescape_cons hb, ih hds, Option.map_map]
    rfl

/-- Reading shortens a string, unless it has no `%`. -/
theorem length_of_unescape (h : unescape bs = some ds) :
    ds.length ≤ bs.length ∧ (ds.length = bs.length → 0x25 ∉ bs) := by
  fun_induction unescape bs generalizing ds with
  | case1 =>
    cases h
    simp
  -- three bytes become one
  | case2 a b rest ih =>
    obtain ⟨c, _, hrest⟩ := Option.bind_eq_some_iff.mp h
    obtain ⟨ds, hds, rfl⟩ := Option.map_eq_some_iff.mp hrest
    have hle := (ih hds).1
    simp only [List.length_cons]
    exact ⟨by omega, fun heq => by omega⟩
  | case3 => cases h
  | case4 b rest hb ih =>
    obtain ⟨ds, hds, rfl⟩ := Option.map_eq_some_iff.mp h
    obtain ⟨hle, hplain⟩ := ih hds
    simp only [List.length_cons, Nat.add_right_cancel_iff, List.mem_cons, not_or]
    exact ⟨by omega, fun heq => ⟨fun hpct => hb hpct.symm, hplain heq⟩⟩

/-- Nothing is read of the empty string only. -/
theorem eq_nil_of_unescape (h : unescape bs = some []) : bs = [] := by
  fun_cases unescape bs with
  | case1 => rfl
  | case2 a b rest =>
    rw [unescape, if_pos rfl] at h
    obtain ⟨c, _, hrest⟩ := Option.bind_eq_some_iff.mp h
    obtain ⟨_, _, hcons⟩ := Option.map_eq_some_iff.mp hrest
    cases hcons
  | case3 => simp_all [unescape]
  | case4 b rest hb =>
    rw [unescape_cons hb] at h
    obtain ⟨_, _, hcons⟩ := Option.map_eq_some_iff.mp h
    cases hcons

/-- The digits of a byte are on one side of a slash. -/
theorem exists_of_unescape_slash (h : unescape (bs ++ 0x2F :: cs) = some ds) :
    ∃ p q, unescape bs = some p ∧ unescape cs = some q ∧ ds = p ++ 0x2F :: q := by
  have hdigit : ∀ a : UInt8, byteOf 0x2F a = none ∧ byteOf a 0x2F = none := by
    intro a
    unfold byteOf
    rw [show unhex 0x2F = none from rfl]
    exact ⟨rfl, by cases unhex a <;> rfl⟩
  fun_induction unescape bs generalizing ds with
  | case1 =>
    rw [List.nil_append, unescape_cons (by decide)] at h
    obtain ⟨q, hq, rfl⟩ := Option.map_eq_some_iff.mp h
    exact ⟨[], q, rfl, hq, rfl⟩
  | case2 a b rest ih =>
    rw [List.cons_append, List.cons_append, List.cons_append, unescape, if_pos rfl] at h
    obtain ⟨c, hc, hrest⟩ := Option.bind_eq_some_iff.mp h
    obtain ⟨ds, hds, rfl⟩ := Option.map_eq_some_iff.mp hrest
    obtain ⟨p, q, hp, hq, rfl⟩ := ih hds
    rw [hc, hp]
    exact ⟨c :: p, q, rfl, hq, rfl⟩
  | case3 rest hshort =>
    -- a `%` whose digits would reach over the slash
    cases rest with
    | nil => cases cs <;> simp [unescape, hdigit] at h
    | cons a rest =>
      cases rest with
      | nil => simp [unescape, hdigit] at h
      | cons b rest => exact (hshort a b rest rfl).elim
  | case4 b rest hb ih =>
    rw [List.cons_append, unescape_cons hb] at h
    obtain ⟨ds, hds, rfl⟩ := Option.map_eq_some_iff.mp h
    obtain ⟨p, q, hp, hq, rfl⟩ := ih hds
    rw [hp]
    exact ⟨b :: p, q, rfl, hq, rfl⟩

/-- A string without `%` stands for itself. -/
theorem unescape_of_plain (h : ∀ b ∈ bs, b ≠ 0x25) : unescape bs = some bs := by
  have := unescape_append h []
  rwa [List.append_nil, unescape_nil, Option.map_some, List.append_nil] at this

theorem escape_append (keep : UInt8 → Bool) (bs cs : List UInt8) :
    escape keep (bs ++ cs) = escape keep bs ++ escape keep cs := List.flatMap_append

theorem escape_of_kept (h : ∀ b ∈ bs, keep b = true) : escape keep bs = bs := by
  induction bs with
  | nil => rfl
  | cons b rest ih =>
    have hrest := ih (fun c hc => h c (List.mem_cons_of_mem _ hc))
    unfold escape at hrest ⊢
    rw [List.flatMap_cons, if_pos (h b List.mem_cons_self), hrest]
    rfl

/-- **What is written is read back.** -/
theorem unescape_escape (hkeep : keep 0x25 = false) (bs : List UInt8) :
    unescape (escape keep bs) = some bs := by
  induction bs with
  | nil => exact unescape_nil
  | cons b rest ih =>
    unfold escape at ih ⊢
    rw [List.flatMap_cons]
    split
    -- a byte that is kept is not `%`
    · next hb =>
      have hne : b ≠ 0x25 := by
        rintro rfl
        rw [hkeep] at hb
        cases hb
      rw [List.singleton_append, unescape_cons hne, ih, Option.map_some]
    -- the others are written with digits, and read back from them
    · rw [List.cons_append, List.cons_append, List.singleton_append, unescape_digits, ih,
        Option.map_some]

theorem mem_escape_of_kept {b : UInt8} (hb : b ∈ bs) (hkept : keep b = true) :
    b ∈ escape keep bs :=
  List.mem_flatMap.mpr ⟨b, hb, by rw [if_pos hkept]; exact List.mem_singleton_self b⟩

/-- Escaping adds no `/`. -/
theorem slash_mem_of_escape (h : 0x2F ∈ escape keep bs) : 0x2F ∈ bs := by
  obtain ⟨b, hb, hmem⟩ := List.mem_flatMap.mp h
  split at hmem
  · rw [List.mem_singleton] at hmem
    exact hmem ▸ hb
  -- the digits of a byte are not a slash
  · have hne := digits_ne_slash b
    simp only [List.mem_cons, List.not_mem_nil, or_false] at hmem
    rcases hmem with h | h | h
    · cases h
    · exact absurd h.symm hne.1
    · exact absurd h.symm hne.2

end Percent
