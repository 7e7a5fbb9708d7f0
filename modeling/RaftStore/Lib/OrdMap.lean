import Mathlib.Data.Finset.Basic
import Mathlib.Data.List.Sort
import Mathlib.Data.String.Basic
import Mathlib.Order.Basic

/-!
# Finite maps with ordered keys

A finite map is kept as the list of its bindings in strictly increasing key order, so
that two maps with the same bindings are the same value and the key list comes out
sorted and without repetition. The order is part of the type: a map whose keys are out
of order, or bound twice, cannot be built.

* **`get?`/`set`/`erase`** are the lookup, the update and the deletion;
* **`keys`** is the sorted key list, `mem_keys_set` and `mem_keys_erase` say how the
  updates move it, `get?_isSome_iff` ties the lookup to it.
-/

namespace OrdMap

variable {κ α : Type} [LinearOrder κ]

/-- Insert or overwrite one binding of a sorted list of bindings. -/
def insertBinding (k : κ) (v : α) : List (κ × α) → List (κ × α)
  | [] => [(k, v)]
  | (k', v') :: rest =>
    if k < k' then (k, v) :: (k', v') :: rest
    else if k = k' then (k, v) :: rest
    else (k', v') :: insertBinding k v rest

theorem mem_map_fst_insertBinding (k : κ) (v : α) (x : κ) (bs : List (κ × α)) :
    x ∈ (insertBinding k v bs).map Prod.fst ↔ x = k ∨ x ∈ bs.map Prod.fst := by
  induction bs with
  | nil => simp [insertBinding]
  | cons b rest ih =>
    obtain ⟨k', v'⟩ := b
    unfold insertBinding
    split
    · simp
    · split
      · next hk => subst hk; simp
      · rw [List.map_cons, List.mem_cons, ih, List.map_cons, List.mem_cons]
        tauto

/-- Inserting keeps the bindings sorted: the new key is placed before the first larger
one, or takes the place of its own old binding. -/
theorem pairwise_insertBinding (k : κ) (v : α) {bs : List (κ × α)}
    (h : bs.Pairwise (fun a b => a.1 < b.1)) :
    (insertBinding k v bs).Pairwise (fun a b => a.1 < b.1) := by
  induction bs with
  | nil => simp [insertBinding]
  | cons b rest ih =>
    obtain ⟨k', v'⟩ := b
    rw [List.pairwise_cons] at h
    unfold insertBinding
    split
    · next hlt =>
      refine List.pairwise_cons.mpr ⟨?_, List.pairwise_cons.mpr h⟩
      intro a ha
      rcases List.mem_cons.mp ha with rfl | ha
      · exact hlt
      · exact hlt.trans (h.1 a ha)
    · next hnlt =>
      split
      · next heq => exact List.pairwise_cons.mpr ⟨fun a ha => heq ▸ h.1 a ha, h.2⟩
      · next hne =>
        refine List.pairwise_cons.mpr ⟨?_, ih h.2⟩
        intro a ha
        have hmem := (mem_map_fst_insertBinding k v a.1 rest).mp (List.mem_map_of_mem ha)
        rcases hmem with hk | hrest
        · exact hk ▸ lt_of_le_of_ne (not_lt.mp hnlt) (Ne.symm hne)
        · obtain ⟨b, hb, hba⟩ := List.mem_map.mp hrest
          exact hba ▸ h.1 b hb

end OrdMap

/-- A finite map from `κ` to `α`: its bindings in strictly increasing key order. -/
structure OrdMap (κ α : Type) [LinearOrder κ] where
  bindings : List (κ × α)
  sorted : bindings.Pairwise (fun a b => a.1 < b.1)

namespace OrdMap

variable {κ α : Type} [LinearOrder κ]

instance [DecidableEq α] : DecidableEq (OrdMap κ α) := fun a b =>
  decidable_of_iff (a.bindings = b.bindings) (by cases a; cases b; simp)

/-- The map without bindings. -/
def empty : OrdMap κ α := ⟨[], List.Pairwise.nil⟩

/-- The map with one binding. -/
def single (k : κ) (v : α) : OrdMap κ α := ⟨[(k, v)], List.pairwise_singleton _ _⟩

/-- `m[k]` together with its presence. -/
def get? (m : OrdMap κ α) (k : κ) : Option α := m.bindings.lookup k

/-- `m[k] = v`. -/
def set (m : OrdMap κ α) (k : κ) (v : α) : OrdMap κ α :=
  ⟨insertBinding k v m.bindings, pairwise_insertBinding k v m.sorted⟩

/-- `delete(m, k)`. -/
def erase (m : OrdMap κ α) (k : κ) : OrdMap κ α :=
  ⟨m.bindings.filter (fun b => decide (b.1 ≠ k)), m.sorted.filter _⟩

/-- The keys in increasing order. -/
def keys (m : OrdMap κ α) : List κ := m.bindings.map Prod.fst

/-- `len(m) == 0`. -/
def isEmpty (m : OrdMap κ α) : Bool := m.bindings.isEmpty

/-- A map literal; a later binding of a key overwrites an earlier one. -/
def ofList (bs : List (κ × α)) : OrdMap κ α :=
  bs.foldl (fun m b => m.set b.1 b.2) empty

theorem keys_sorted (m : OrdMap κ α) : m.keys.Pairwise (· < ·) :=
  List.Pairwise.map Prod.fst (fun _ _ h => h) m.sorted

theorem keys_nodup (m : OrdMap κ α) : m.keys.Nodup := m.keys_sorted.imp ne_of_lt

@[simp] theorem mem_keys_set (m : OrdMap κ α) (k x : κ) (v : α) :
    x ∈ (m.set k v).keys ↔ x = k ∨ x ∈ m.keys :=
  mem_map_fst_insertBinding k v x m.bindings

@[simp] theorem mem_keys_erase (m : OrdMap κ α) (k x : κ) :
    x ∈ (m.erase k).keys ↔ x ∈ m.keys ∧ x ≠ k := by
  simp only [keys, erase, List.mem_map, List.mem_filter, decide_eq_true_eq]
  constructor
  · rintro ⟨b, ⟨hb, hne⟩, rfl⟩
    exact ⟨⟨b, hb, rfl⟩, hne⟩
  · rintro ⟨⟨b, hb, rfl⟩, hne⟩
    exact ⟨b, ⟨hb, hne⟩, rfl⟩

theorem keys_set_toFinset (m : OrdMap κ α) (k : κ) (v : α) :
    (m.set k v).keys.toFinset = insert k m.keys.toFinset := by
  ext x
  simp

theorem keys_erase_toFinset (m : OrdMap κ α) (k : κ) :
    (m.erase k).keys.toFinset = m.keys.toFinset.erase k := by
  ext x
  simp [and_comm]

theorem mem_keys_foldl_set (m : OrdMap κ α) (bs : List (κ × α)) (x : κ) :
    x ∈ (bs.foldl (fun m b => m.set b.1 b.2) m).keys ↔ x ∈ bs.map Prod.fst ∨ x ∈ m.keys := by
  induction bs generalizing m with
  | nil => simp
  | cons b rest ih =>
    rw [List.foldl_cons, ih, mem_keys_set, List.map_cons, List.mem_cons]
    tauto

theorem mem_keys_ofList (bs : List (κ × α)) (x : κ) :
    x ∈ (ofList bs).keys ↔ x ∈ bs.map Prod.fst := by
  have h := mem_keys_foldl_set empty bs x
  simpa [ofList, keys, empty] using h

/-- The lookup finds a key exactly when it is bound. -/
theorem get?_isSome_iff (m : OrdMap κ α) (k : κ) : (m.get? k).isSome ↔ k ∈ m.keys := by
  unfold get? keys
  induction m.bindings with
  | nil => simp
  | cons b rest ih =>
    obtain ⟨k', v'⟩ := b
    rw [List.lookup_cons]
    by_cases hk : k = k'
    · simp [hk]
    · rw [show (k == k') = false from by simpa using hk]
      simp [hk, ih]

theorem lookup_insertBinding (k : κ) (v : α) (x : κ) (bs : List (κ × α)) :
    (insertBinding k v bs).lookup x = if x = k then some v else bs.lookup x := by
  induction bs with
  | nil =>
    unfold insertBinding
    rw [List.lookup_cons]
    by_cases hx : x = k
    · simp [hx]
    · simp [hx, show (x == k) = false from by simpa using hx]
  | cons b rest ih =>
    obtain ⟨k', v'⟩ := b
    unfold insertBinding
    split
    · rw [List.lookup_cons]
      by_cases hx : x = k
      · simp [hx]
      · simp [hx, show (x == k) = false from by simpa using hx]
    · split
      · next hk =>
        subst hk
        rw [List.lookup_cons, List.lookup_cons]
        by_cases hx : x = k
        · simp [hx]
        · simp [hx, show (x == k) = false from by simpa using hx]
      · next hne =>
        rw [List.lookup_cons, List.lookup_cons, ih]
        by_cases hx : x = k'
        · subst hx
          simp [Ne.symm hne]
        · simp [show (x == k') = false from by simpa using hx]

@[simp] theorem get?_set (m : OrdMap κ α) (k x : κ) (v : α) :
    (m.set k v).get? x = if x = k then some v else m.get? x :=
  lookup_insertBinding k v x m.bindings

/-- A binding that is found is one of the map. -/
theorem mem_bindings_of_get? {m : OrdMap κ α} {k : κ} {v : α} (h : m.get? k = some v) :
    (k, v) ∈ m.bindings := by
  unfold get? at h
  generalize m.bindings = bs at h ⊢
  induction bs with
  | nil => cases h
  | cons b rest ih =>
    obtain ⟨k', v'⟩ := b
    rw [List.lookup_cons] at h
    by_cases hk : k = k'
    · subst hk
      simp only [beq_self_eq_true, Option.some.injEq] at h
      rw [h]
      exact List.mem_cons_self
    · rw [show (k == k') = false from by simpa using hk] at h
      exact List.mem_cons_of_mem _ (ih h)

/-- A binding of the map is found. -/
theorem get?_of_mem_bindings {m : OrdMap κ α} {k : κ} {v : α} (h : (k, v) ∈ m.bindings) :
    m.get? k = some v := by
  obtain ⟨bs, hs⟩ := m
  unfold get?
  dsimp only at h ⊢
  induction bs with
  | nil => cases h
  | cons b rest ih =>
    rw [List.pairwise_cons] at hs
    rcases List.mem_cons.mp h with rfl | hmem
    · exact List.lookup_cons_self
    · have hne : (k == b.1) = false := beq_eq_false_iff_ne.mpr (ne_of_gt (hs.1 _ hmem))
      rw [List.lookup_cons, hne]
      exact ih hs.2 hmem

theorem lookup_filter_ne (k x : κ) (bs : List (κ × α)) :
    (bs.filter (fun b => decide (b.1 ≠ k))).lookup x = if x = k then none else bs.lookup x := by
  induction bs with
  | nil => simp
  | cons b rest ih =>
    by_cases hb : b.1 = k
    · rw [List.filter_cons_of_neg (by simpa using hb), ih]
      by_cases hx : x = k
      · simp [hx]
      · have hne : (x == b.1) = false := beq_eq_false_iff_ne.mpr (fun heq => hx (heq.trans hb))
        rw [List.lookup_cons, hne]
    · rw [List.filter_cons_of_pos (by simpa using hb), List.lookup_cons, List.lookup_cons, ih]
      by_cases hx : x = b.1
      · simp [hx, hb]
      · simp [beq_eq_false_iff_ne.mpr hx]

@[simp] theorem get?_erase (m : OrdMap κ α) (k x : κ) :
    (m.erase k).get? x = if x = k then none else m.get? x :=
  lookup_filter_ne k x m.bindings

/-- Setting a key to what it has. -/
theorem insertBinding_of_mem {k : κ} {v : α} {bs : List (κ × α)}
    (hs : bs.Pairwise (fun a b => a.1 < b.1)) (h : (k, v) ∈ bs) : insertBinding k v bs = bs := by
  induction bs with
  | nil => cases h
  | cons b rest ih =>
    rw [List.pairwise_cons] at hs
    rcases List.mem_cons.mp h with rfl | hmem
    · simp [insertBinding]
    · -- the key is behind the first binding
      have hlt : b.1 < k := hs.1 _ hmem
      simp [insertBinding, not_lt.mpr hlt.le, hlt.ne', ih hs.2 hmem]

theorem set_eq_self_iff {m : OrdMap κ α} {k : κ} {v : α} : m.set k v = m ↔ m.get? k = some v := by
  constructor
  · intro h
    rw [← h]
    simp
  · intro h
    have hbs := insertBinding_of_mem m.sorted (mem_bindings_of_get? h)
    unfold set
    simp only [hbs]

/-- A key behind all others. -/
theorem insertBinding_of_gt {k : κ} (v : α) {bs : List (κ × α)} (h : ∀ b ∈ bs, b.1 < k) :
    insertBinding k v bs = bs ++ [(k, v)] := by
  induction bs with
  | nil => rfl
  | cons b rest ih =>
    have hlt : b.1 < k := h b List.mem_cons_self
    have hrest := ih (fun c hc => h c (List.mem_cons_of_mem b hc))
    simp [insertBinding, not_lt.mpr hlt.le, hlt.ne', hrest]

/-- Setting keys in increasing order appends their bindings. -/
theorem bindings_foldl_set {bs : List (κ × α)} (m : OrdMap κ α)
    (h : (m.bindings ++ bs).Pairwise (fun a b => a.1 < b.1)) :
    (bs.foldl (fun m b => m.set b.1 b.2) m).bindings = m.bindings ++ bs := by
  induction bs generalizing m with
  | nil => simp
  | cons b rest ih =>
    have hset : (m.set b.1 b.2).bindings = m.bindings ++ [b] :=
      insertBinding_of_gt b.2 (fun c hc =>
        (List.pairwise_append.mp h).2.2 c hc b List.mem_cons_self)
    rw [List.foldl_cons, ih]
    · rw [hset, List.append_assoc, List.singleton_append]
    · rw [hset, List.append_assoc, List.singleton_append]
      exact h

/-- A map is the literal of its bindings. -/
theorem ofList_bindings (m : OrdMap κ α) : ofList m.bindings = m := by
  have hsorted : ((empty : OrdMap κ α).bindings ++ m.bindings).Pairwise (fun a b => a.1 < b.1) := by
    simpa [empty] using m.sorted
  have h := bindings_foldl_set empty hsorted
  cases hm : ofList m.bindings
  cases m
  unfold ofList at hm
  rw [hm] at h
  simpa [empty] using h

/-- A map with a bound key is not empty. -/
theorem isEmpty_eq_false_of_mem {m : OrdMap κ α} {k : κ} (h : k ∈ m.keys) :
    m.isEmpty = false := by
  unfold keys at h
  unfold isEmpty
  cases hb : m.bindings with
  | nil => rw [hb] at h; simp at h
  | cons b rest => rfl

theorem keys_ne_nil {m : OrdMap κ α} (h : m.isEmpty = false) : m.keys ≠ [] := by
  unfold isEmpty at h
  unfold keys
  simpa using h

/-- A map of more than one key has one besides `k`. -/
theorem exists_mem_keys_ne {m : OrdMap κ α} {k : κ} (h : ¬ m.keys.length ≤ 1) :
    ∃ p ∈ m.keys, p ≠ k := by
  by_contra hall
  push Not at hall
  have hsub : m.keys ⊆ [k] := fun p hp => List.mem_singleton.mpr (hall p hp)
  exact h (List.subperm_of_subset m.keys_nodup hsub).length_le

end OrdMap
