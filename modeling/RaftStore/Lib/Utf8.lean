import Mathlib.Data.List.Basic

/-!
# UTF-8

Byte strings that are read as UTF-8, where a byte that belongs to no well-formed rune is replaced
by the encoding of U+FFFD.

* **`runeTail`** says how many bytes complete the rune that a byte begins;
* **`valid`** and **`toValid`** walk over a string rune by rune. They carry the number of bytes that
  the current rune still has, so that both are structural recursions;
* **`toValid_of_valid`**: valid strings stay as they are, and `valid_toValid`: the result
  is always valid;
* **`toValid_take_eq_iff`**: when a string comes back although it was cut.
-/

namespace Utf8

/-! ## Runes -/

/-- What a byte that begins a rune asks of the bytes after it: how many there are, and the range of
the first one. The others are between `0x80` and `0xBF`. -/
def lead (a : UInt8) : Option (Nat × UInt8 × UInt8) :=
  if a < 0x80 then some (0, 0x80, 0xBF)
  else if a < 0xC2 then none
  else if a < 0xE0 then some (1, 0x80, 0xBF)
  -- no overlong encodings, no surrogates
  else if a = 0xE0 then some (2, 0xA0, 0xBF)
  else if a = 0xED then some (2, 0x80, 0x9F)
  else if a < 0xF0 then some (2, 0x80, 0xBF)
  -- nothing above U+10FFFF
  else if a = 0xF0 then some (3, 0x90, 0xBF)
  else if a < 0xF4 then some (3, 0x80, 0xBF)
  else if a = 0xF4 then some (3, 0x80, 0x8F)
  else none

/-- The string begins with `k` continuation bytes, the first one between `lo` and `hi`. -/
def follows : Nat → UInt8 → UInt8 → List UInt8 → Bool
  | 0, _, _, _ => true
  | _ + 1, _, _, [] => false
  | k + 1, lo, hi, b :: rest => lo ≤ b && b ≤ hi && follows k 0x80 0xBF rest

/-- The number of bytes of `rest` that complete the rune that `a` begins. -/
def runeTail (a : UInt8) (rest : List UInt8) : Option Nat :=
  (lead a).bind (fun r => if follows r.1 r.2.1 r.2.2 rest then some r.1 else none)

/-! ## Strings -/

/-- The string is well-formed, after `k` more bytes of a rune. -/
def validFrom : Nat → List UInt8 → Bool
  | _, [] => true
  | k + 1, _ :: rest => validFrom k rest
  | 0, b :: rest =>
    match runeTail b rest with
    | some k => validFrom k rest
    | none => false

/-- The bytes are UTF-8. -/
def valid (bs : List UInt8) : Bool := validFrom 0 bs

/-- The encoding of U+FFFD takes the place of every stray byte, after `k` more bytes of a rune. -/
def replaceFrom : Nat → List UInt8 → List UInt8
  | _, [] => []
  | k + 1, b :: rest => b :: replaceFrom k rest
  | 0, b :: rest =>
    match runeTail b rest with
    | some k => b :: replaceFrom k rest
    | none => 0xEF :: 0xBF :: 0xBD :: replaceFrom 0 rest

/-- What is not UTF-8 is replaced by U+FFFD, byte by byte. -/
def toValid (bs : List UInt8) : List UInt8 := replaceFrom 0 bs

theorem validFrom_of_ascii {k : Nat} {bs : List UInt8} (h : ∀ b ∈ bs, b < 0x80) :
    validFrom k bs = true := by
  induction bs generalizing k with
  | nil => cases k <;> rfl
  | cons b rest ih =>
    have hrest := fun k => ih (k := k) (fun c hc => h c (List.mem_cons_of_mem _ hc))
    -- within a rune, or at the start of one
    cases k with
    | succ k =>
      rw [validFrom]
      exact hrest k
    | zero =>
      have htail : runeTail b rest = some 0 := by
        unfold runeTail lead
        rw [if_pos (h b List.mem_cons_self)]
        rfl
      simp only [validFrom, htail]
      exact hrest 0

theorem replaceFrom_of_valid {k : Nat} {bs : List UInt8} (h : validFrom k bs = true) :
    replaceFrom k bs = bs := by
  induction bs generalizing k with
  | nil => cases k <;> rfl
  | cons b rest ih =>
    cases k with
    | succ k =>
      rw [validFrom] at h
      rw [replaceFrom, ih h]
    | zero =>
      rw [validFrom] at h
      rw [replaceFrom]
      -- a byte that starts no rune would not be valid
      cases hr : runeTail b rest with
      | none =>
        rw [hr] at h
        cases h
      | some k =>
        rw [hr] at h
        exact congrArg (b :: ·) (ih h)

/-- The bytes of the current rune are copied. -/
theorem follows_replaceFrom {k : Nat} {lo hi : UInt8} {bs : List UInt8}
    (h : follows k lo hi bs = true) : follows k lo hi (replaceFrom k bs) = true := by
  induction k generalizing lo hi bs with
  | zero => rfl
  | succ k ih =>
    cases bs with
    | nil => cases h
    | cons b rest =>
      rw [follows, Bool.and_eq_true] at h
      rw [replaceFrom, follows, Bool.and_eq_true]
      exact ⟨h.1, ih h.2⟩

theorem runeTail_replaceFrom {b : UInt8} {rest : List UInt8} {k : Nat}
    (h : runeTail b rest = some k) : runeTail b (replaceFrom k rest) = some k := by
  unfold runeTail at h ⊢
  obtain ⟨r, hr, h⟩ := Option.bind_eq_some_iff.mp h
  split at h
  · next hf =>
    cases h
    rw [hr, Option.bind_some, if_pos (follows_replaceFrom hf)]
  · cases h

theorem validFrom_replaceFrom (k : Nat) (bs : List UInt8) :
    validFrom k (replaceFrom k bs) = true := by
  induction bs generalizing k with
  | nil => cases k <;> rfl
  | cons b rest ih =>
    cases k with
    | succ k =>
      rw [replaceFrom, validFrom]
      exact ih k
    | zero =>
      rw [replaceFrom]
      cases hr : runeTail b rest with
      | none =>
        -- U+FFFD is a rune of three bytes
        exact ih 0
      | some k =>
        simp only [validFrom, runeTail_replaceFrom hr]
        exact ih k

theorem valid_toValid (bs : List UInt8) : valid (toValid bs) = true :=
  validFrom_replaceFrom 0 bs

theorem toValid_of_valid {bs : List UInt8} (h : valid bs = true) : toValid bs = bs :=
  replaceFrom_of_valid h

theorem toValid_eq_self_iff {bs : List UInt8} : toValid bs = bs ↔ valid bs = true :=
  ⟨fun h => h ▸ valid_toValid bs, toValid_of_valid⟩

/-! ## Strings that were cut

A cut within an encoding of U+FFFD leaves stray bytes, and each of them is replaced by U+FFFD. -/

/-- The encoding of U+FFFD, `j` times. -/
def replacements : Nat → List UInt8
  | 0 => []
  | j + 1 => 0xEF :: 0xBF :: 0xBD :: replacements j

/-- The first `j` bytes of U+FFFD, for `j ≤ 2`. -/
def strayBytes (j : Nat) : List UInt8 := [0xEF, 0xBF].take j

/-- A string that begins what it is replaced by ends in stray bytes of U+FFFD, if it has any. -/
theorem exists_stray {k : Nat} {bs : List UInt8} (h : bs <+: replaceFrom k bs) :
    ∃ front j, j ≤ 2 ∧ bs = front ++ strayBytes j ∧ replaceFrom k bs = front ++ replacements j := by
  induction bs generalizing k with
  | nil => exact ⟨[], 0, by decide, rfl, by cases k <;> rfl⟩
  | cons b rest ih =>
    -- a byte that is copied goes to the front
    have hcopied : ∀ {k' : Nat}, rest <+: replaceFrom k' rest → ∃ front j, j ≤ 2 ∧
        b :: rest = front ++ strayBytes j ∧ b :: replaceFrom k' rest = front ++ replacements j := by
      intro k' hrest
      obtain ⟨front, j, hj, heq, hrep⟩ := ih hrest
      exact ⟨b :: front, j, hj, congrArg (b :: ·) heq, congrArg (b :: ·) hrep⟩
    cases k with
    | succ k =>
      rw [replaceFrom] at h ⊢
      exact hcopied (List.prefix_cons_inj b |>.mp h)
    | zero =>
      rw [replaceFrom] at h ⊢
      cases hr : runeTail b rest with
      | some k =>
        rw [hr] at h
        exact hcopied (List.prefix_cons_inj b |>.mp h)
      | none =>
        -- the string goes on as U+FFFD does, but not for all of its three bytes
        rw [hr] at h
        dsimp only at h
        obtain ⟨rfl, h₁⟩ := List.cons_prefix_cons.mp h
        cases rest with
        | nil => exact ⟨[], 1, by decide, rfl, rfl⟩
        | cons b₁ rest =>
          obtain ⟨rfl, h₂⟩ := List.cons_prefix_cons.mp h₁
          cases rest with
          | nil => exact ⟨[], 2, by decide, rfl, rfl⟩
          | cons b₂ rest =>
            obtain ⟨rfl, _⟩ := List.cons_prefix_cons.mp h₂
            cases hr

/-- No rune reaches into U+FFFD. -/
theorem follows_append {k : Nat} {lo hi : UInt8} {front bs : List UInt8} (hhi : hi ≤ 0xBF)
    (h : follows k lo hi (front ++ 0xEF :: bs) = true) :
    k ≤ front.length ∧ ∀ cs, follows k lo hi (front ++ 0xEF :: cs) = true := by
  induction front generalizing k lo hi with
  | nil =>
    cases k with
    | zero => exact ⟨Nat.le_refl 0, fun _ => rfl⟩
    -- the next byte cannot continue a rune: it starts one
    | succ k =>
      simp only [List.nil_append, follows, Bool.and_eq_true, decide_eq_true_eq] at h
      exact absurd (UInt8.le_trans h.1.2 hhi) (by decide)
  | cons b front ih =>
    cases k with
    | zero => exact ⟨Nat.zero_le _, fun _ => rfl⟩
    | succ k =>
      rw [List.cons_append, follows, Bool.and_eq_true] at h
      obtain ⟨hle, hall⟩ := ih (by decide) h.2
      refine ⟨Nat.succ_le_succ hle, fun cs => ?_⟩
      rw [List.cons_append, follows, Bool.and_eq_true]
      exact ⟨h.1, hall cs⟩

theorem lead_le {a : UInt8} {r : Nat × UInt8 × UInt8} (h : lead a = some r) : r.2.2 ≤ 0xBF := by
  unfold lead at h
  repeat' split at h
  all_goals
    cases h
    try decide

theorem runeTail_append {a : UInt8} {k : Nat} {front bs : List UInt8}
    (h : runeTail a (front ++ 0xEF :: bs) = some k) :
    k ≤ front.length ∧ ∀ cs, runeTail a (front ++ 0xEF :: cs) = some k := by
  unfold runeTail at h ⊢
  obtain ⟨r, hr, h⟩ := Option.bind_eq_some_iff.mp h
  split at h
  · next hf =>
    cases h
    obtain ⟨hle, hall⟩ := follows_append (lead_le hr) hf
    refine ⟨hle, fun cs => ?_⟩
    rw [hr, Option.bind_some, if_pos (hall cs)]
  · cases h

/-- What stands in front of U+FFFD stays as it is, whatever the rest of the string is. -/
theorem replaceFrom_append {k : Nat} {front bs : List UInt8}
    (h : validFrom k (front ++ 0xEF :: bs) = true) (hk : k ≤ front.length) (cs : List UInt8) :
    replaceFrom k (front ++ 0xEF :: cs) = front ++ replaceFrom 0 (0xEF :: cs) := by
  induction front generalizing k with
  | nil =>
    obtain rfl : k = 0 := Nat.le_zero.mp hk
    rfl
  | cons b front ih =>
    rw [List.cons_append] at h ⊢
    cases k with
    -- within a rune, and at the start of one
    | succ k =>
      rw [validFrom] at h
      rw [replaceFrom, ih h (Nat.le_of_succ_le_succ hk)]
      rfl
    | zero =>
      rw [validFrom] at h
      cases hr : runeTail b (front ++ 0xEF :: bs) with
      | none =>
        rw [hr] at h
        cases h
      | some k =>
        rw [hr] at h
        obtain ⟨hle, hall⟩ := runeTail_append hr
        rw [replaceFrom, hall cs]
        exact congrArg (b :: ·) (ih h hle)

theorem length_replacements (j : Nat) : (replacements j).length = 3 * j := by
  induction j with
  | zero => rfl
  | succ j ih =>
    simp only [replacements, List.length_cons, ih]
    omega

/-- **A string that is cut comes back** exactly if it is valid, and not longer than the cut or
longer by what the one or two encodings of U+FFFD at its end are, of which the cut leaves a byte
each. -/
theorem toValid_take_eq_iff {N : Nat} {bs : List UInt8} : toValid (bs.take N) = bs ↔
    valid bs = true ∧ (bs.length ≤ N ∨ ∃ front j, (j = 1 ∨ j = 2) ∧ front.length + j = N ∧
      bs = front ++ replacements j) := by
  constructor
  · intro h
    refine ⟨h ▸ valid_toValid _, ?_⟩
    have hpre : bs.take N <+: replaceFrom 0 (bs.take N) := by
      rw [show replaceFrom 0 (bs.take N) = bs from h]
      exact List.take_prefix N bs
    obtain ⟨front, j, hj, hcut, hrep⟩ := exists_stray hpre
    have hbs : bs = front ++ replacements j := h.symm.trans hrep
    -- the string was cut, or it was not
    rcases Nat.lt_or_ge N bs.length with hlt | hle
    -- what was cut off is the rest of the replacements
    · have hlen := congrArg List.length hcut
      have hlen' := congrArg List.length hbs
      rw [List.length_take, Nat.min_eq_left (Nat.le_of_lt hlt), List.length_append] at hlen
      rw [List.length_append, length_replacements] at hlen'
      have hstray : (strayBytes j).length = j := by
        unfold strayBytes
        rw [List.length_take]
        exact Nat.min_eq_left hj
      exact Or.inr ⟨front, j, by omega, by omega, hbs⟩
    · exact Or.inl hle
  · rintro ⟨hvalid, hle | ⟨front, j, hj, hN, rfl⟩⟩
    · rw [List.take_of_length_le hle]
      exact toValid_of_valid hvalid
    -- the stray bytes are replaced by what had been there
    · rw [← hN, List.take_append, List.take_of_length_le (by omega), Nat.add_sub_cancel_left]
      rcases hj with rfl | rfl
      · exact replaceFrom_append hvalid (Nat.zero_le _) []
      · exact replaceFrom_append hvalid (Nat.zero_le _) [0xBF]

end Utf8
