import RaftStore.Lib.Utf8
import RaftStore.Kv.Http
import RaftStore.Results.Store
import Mathlib.Logic.Encodable.Basic
import Mathlib.Logic.Equiv.List

/-!
# Commands and snapshots as JSON

What becomes of a key and a value on their way through `encoding/json`:

* a snapshot and the commands after it give the store that all commands give
  (`snapshot_then_suffix`). A store may hold strings that do not survive the encoding, but a command
  cannot put them there (`textual_applyAll`);
* a put is stored byte for byte exactly if its key and its body are valid UTF-8 and the body is not
  longer than the handler reads, two curious cases apart (`put_stored`). It is altered without an
  error otherwise (`altered_put`).
-/

namespace Kv

open Raft

variable {J : Json} {text : Bytes → Prop}

/-! ## Snapshots -/

/-- Commands applied one after the other. -/
def applyAll (J : Json) (s : Store) (msgs : List ApplyMsg) : Store := msgs.foldl (onApply J) s

/-- What is assumed of `encoding/json`: decoded strings are of the kind `text`, and a map of such
strings survives `Marshal` and `Unmarshal`. -/
structure Json.Surviving (J : Json) (text : Bytes → Prop) : Prop extends Json.Lawful J text where
  marshals : ∀ s, Textual text s → (J.marshalMap s).isSome

/-- Commands put nothing into a store that does not survive a snapshot. -/
theorem textual_applyAll (hJ : J.Lawful text) {s : Store} (h : Textual text s)
    (msgs : List ApplyMsg) : Textual text (applyAll J s msgs) := by
  induction msgs generalizing s with
  | nil => exact h
  | cons msg rest ih => exact ih (h.onApply hJ msg)

theorem applyAll_append (s : Store) (pre suf : List ApplyMsg) :
    applyAll J s (pre ++ suf) = applyAll J (applyAll J s pre) suf := List.foldl_append

/-- **A snapshot and the commands after it** give the store that all commands give, whatever the
store held that the snapshot is restored into. -/
theorem snapshot_then_suffix (hJ : J.Surviving text) (pre suf : List ApplyMsg) (other : Store) :
    ∃ data s, (machine J).snapshotter.snapshot (applyAll J .empty pre) = some data ∧
      restore J other data = some s ∧ applyAll J s suf = applyAll J .empty (pre ++ suf) := by
  have htext : Textual text (applyAll J .empty pre) :=
    textual_applyAll hJ.toLawful textual_empty pre
  obtain ⟨data, hdata⟩ := Option.isSome_iff_exists.mp (hJ.marshals _ htext)
  obtain ⟨hne, hback⟩ := hJ.roundTrip _ data htext hdata
  refine ⟨data, _, hdata, ?_, (applyAll_append .empty pre suf).symm⟩
  unfold restore
  rw [if_neg hne, hback]

/-! ## Puts -/

/-- The command that the `PUT` handler proposes for a key and a request body. -/
def putCommand (J : Json) (key body : Bytes) : Bytes := encodePut J key (Http.readBody body)

/-- What is assumed of `encoding/json` here: `Marshal` replaces invalid UTF-8 by U+FFFD, and what it
writes is read back otherwise. -/
def Json.Replacing (J : Json) : Prop :=
  ∀ key value, encodePut J key value ≠ [] ∧
    J.unmarshalCommand (encodePut J key value) =
      some { op := opPut, key := Utf8.toValid key, value := Utf8.toValid value }

/-- A put that was encoded is applied with what is not UTF-8 replaced. -/
theorem onApply_encodePut (hJ : J.Replacing) (s : Store) (i : Int) (key value : Bytes) :
    onApply J s ⟨i, encodePut J key value⟩ = s.set (Utf8.toValid key) (Utf8.toValid value) := by
  obtain ⟨hne, hcmd⟩ := hJ key value
  unfold onApply
  rw [if_neg hne, hcmd]
  exact if_pos rfl

/-- The value of `key` is `value`, and no other key has changed. -/
def Stored (s s' : Store) (key value : Bytes) : Prop :=
  s'.get? key = some value ∧ ∀ k, k ≠ key → s'.get? k = s.get? k

theorem stored_set (s : Store) (key value : Bytes) : Stored s (s.set key value) key value := by
  refine ⟨by rw [OrdMap.get?_set, if_pos rfl], fun k hk => ?_⟩
  rw [OrdMap.get?_set, if_neg hk]

/-- The body is stored as it is: it is valid UTF-8 and not longer than the handler reads, or the
limit falls into the U+FFFD at its end, of which the reader leaves stray bytes that are replaced by
just that. -/
def Preserved (body : Bytes) : Prop :=
  Utf8.valid body = true ∧ (body.length ≤ Http.maxBody ∨ ∃ front j, (j = 1 ∨ j = 2) ∧
    front.length + j = Http.maxBody ∧ body = front ++ Utf8.replacements j)

theorem toValid_readBody_eq_iff {body : Bytes} :
    Utf8.toValid (Http.readBody body) = body ↔ Preserved body := Utf8.toValid_take_eq_iff

/-- With a key that is UTF-8, a put is stored as sent if and only if its body is preserved. -/
theorem stored_iff_of_valid (hJ : J.Replacing) {key body : Bytes} (hkey : Utf8.valid key = true)
    (s : Store) (i : Int) :
    Stored s (onApply J s ⟨i, putCommand J key body⟩) key body ↔ Preserved body := by
  unfold putCommand
  rw [onApply_encodePut hJ, ← toValid_readBody_eq_iff, Utf8.toValid_of_valid hkey]
  constructor
  · rintro ⟨hget, _⟩
    rw [OrdMap.get?_set, if_pos rfl] at hget
    exact Option.some.inj hget
  · intro hbody
    rw [hbody]
    exact stored_set s key body

/-- A put in a store that has both what the key and what the replaced key should be bound to. -/
def Coincides (s : Store) (key body : Bytes) : Prop :=
  s.get? key = some body ∧
    s.get? (Utf8.toValid key) = some (Utf8.toValid (Http.readBody body))

/-- **Writes are stored byte for byte** exactly if the key is valid UTF-8 and the body is preserved,
or if the key is not, and the store has the bindings already. -/
theorem put_stored (hJ : J.Replacing) (key body : Bytes) (s : Store) (i : Int) :
    Stored s (onApply J s ⟨i, putCommand J key body⟩) key body ↔
      Utf8.valid key = true ∧ Preserved body ∨ Utf8.valid key = false ∧ Coincides s key body := by
  cases hkey : Utf8.valid key with
  | true =>
    simp only [true_and, Bool.true_eq_false, false_and, or_false]
    exact stored_iff_of_valid hJ hkey s i
  | false =>
    -- the replaced key is another one
    have hne : Utf8.toValid key ≠ key := by
      rw [Ne, Utf8.toValid_eq_self_iff, hkey]
      decide
    simp only [Bool.false_eq_true, false_and, true_and, false_or]
    unfold putCommand Stored Coincides
    rw [onApply_encodePut hJ, OrdMap.get?_set, if_neg hne.symm]
    refine and_congr_right (fun _ => ⟨fun hrest => ?_, fun hget k hk => ?_⟩)
    -- nothing may change at the replaced key
    · have hsame := hrest (Utf8.toValid key) hne
      rw [OrdMap.get?_set, if_pos rfl] at hsame
      exact hsame.symm
    -- and nothing else does
    · rw [OrdMap.get?_set]
      split
      · next heq => rw [heq, hget]
      · rfl

/-- The command for the request does not store the body under the key, whatever the store. -/
def Alters (J : Json) (key body : Bytes) : Prop :=
  ∀ s i, ¬ Stored s (onApply J s ⟨i, putCommand J key body⟩) key body

theorem alters_of_not_preserved (hJ : J.Replacing) {key body : Bytes}
    (hkey : Utf8.valid key = true) (hbody : ¬ Preserved body) : Alters J key body :=
  fun s i hstored => hbody ((stored_iff_of_valid hJ hkey s i).mp hstored)

/-! ## A stand-in for `encoding/json`

Texts are numbers in unary here. It shows that what is assumed of the encoding can be had. -/

/-- Bytes as numbers. -/
def codes (bs : Bytes) : List Nat := bs.map UInt8.toNat

/-- Numbers as bytes. -/
def ofCodes (l : List Nat) : Bytes := l.map UInt8.ofNat

theorem ofCodes_codes (bs : Bytes) : ofCodes (codes bs) = bs := by
  unfold ofCodes codes
  rw [List.map_map]
  exact (List.map_congr_left (fun b _ => UInt8.ofNat_toNat)).trans (List.map_id bs)

/-- A number as so many zeros, and one more. -/
def unary (n : Nat) : Bytes := List.replicate (n + 1) 0

/-- The bindings of a map, if they are those of a map of valid strings. -/
def ofBindings (bs : List (Bytes × Bytes)) : Option Store :=
  if h : bs.Pairwise (fun a b => a.1 < b.1) ∧
      ∀ b ∈ bs, Utf8.valid b.1 = true ∧ Utf8.valid b.2 = true then some ⟨bs, h.1⟩
  else none

/-- It encodes pairs of lists by numbers, and replaces what is not UTF-8 as `encoding/json` does. -/
def standInJson : Json where
  marshalCommand := fun c =>
    unary (Encodable.encode (codes (Utf8.toValid c.key), codes (Utf8.toValid c.value)))
  unmarshalCommand := fun data =>
    (Encodable.decode (data.length - 1) : Option (List Nat × List Nat)).map (fun p =>
      { op := opPut, key := Utf8.toValid (ofCodes p.1), value := Utf8.toValid (ofCodes p.2) })
  marshalMap := fun s =>
    some (unary (Encodable.encode (s.bindings.map (fun b => (codes b.1, codes b.2)))))
  unmarshalMap := fun data =>
    (Encodable.decode (data.length - 1) : Option (List (List Nat × List Nat))).bind (fun l =>
      ofBindings (l.map (fun b => (ofCodes b.1, ofCodes b.2))))

/-- What the stand-in decodes has been replaced. -/
theorem standInJson_replacing : standInJson.Replacing := by
  intro key value
  refine ⟨by simp [encodePut, standInJson, unary], ?_⟩
  simp only [encodePut, standInJson, unary, List.length_replicate, Nat.add_sub_cancel,
    Encodable.encodek, Option.map_some, ofCodes_codes, Utf8.toValid_of_valid (Utf8.valid_toValid _)]

theorem ofBindings_bindings {s : Store} (h : Textual (Utf8.valid · = true) s) :
    ofBindings s.bindings = some s := by
  unfold ofBindings
  rw [dif_pos ⟨s.sorted, fun b hb => h b.1 b.2 (OrdMap.get?_of_mem_bindings hb)⟩]

/-- What is decoded is a store of texts. -/
theorem textual_of_ofBindings {bs : List (Bytes × Bytes)} {s : Store} (h : ofBindings bs = some s) :
    Textual (Utf8.valid · = true) s := by
  unfold ofBindings at h
  split at h
  · next hbs =>
    cases h
    intro k v hget
    exact hbs.2 (k, v) (OrdMap.mem_bindings_of_get? hget)
  · cases h

/-- Its snapshots survive. -/
theorem standInJson_surviving : standInJson.Surviving (Utf8.valid · = true) where
  command := by
    intro data cmd h
    obtain ⟨p, _, rfl⟩ := Option.map_eq_some_iff.mp h
    exact ⟨Utf8.valid_toValid _, Utf8.valid_toValid _⟩
  map := by
    intro data s h
    obtain ⟨l, _, hl⟩ := Option.bind_eq_some_iff.mp h
    exact textual_of_ofBindings hl
  roundTrip := by
    intro s data hs hdata
    cases hdata
    refine ⟨by simp [unary], ?_⟩
    simp only [standInJson, unary, List.length_replicate, Nat.add_sub_cancel, Encodable.encodek,
      Option.bind_some, List.map_map, Function.comp_def, ofCodes_codes, Prod.mk.eta, List.map_id']
    exact ofBindings_bindings hs
  marshals := fun _ _ => rfl

/-! ## Instances -/

/-- A put, a text that is no command, and a no-op. -/
def mixedCommands : List ApplyMsg := [⟨1, encodePut standInJson [0x6b] [0x76]⟩, ⟨2, [1]⟩, ⟨3, []⟩]

theorem snapshot_then_suffix_sample : standInJson.Surviving (Utf8.valid · = true) ∧
    ∃ data s, (machine standInJson).snapshotter.snapshot
      (applyAll standInJson .empty mixedCommands) =
        some data ∧ restore standInJson .empty data = some s ∧
      applyAll standInJson s mixedCommands =
        applyAll standInJson .empty (mixedCommands ++ mixedCommands) :=
  ⟨standInJson_surviving,
    snapshot_then_suffix standInJson_surviving mixedCommands mixedCommands .empty⟩

theorem put_stored_sample : Utf8.valid [0xC3, 0xA9] = true ∧
    Stored .empty (onApply standInJson .empty ⟨1, putCommand standInJson [0x6b] [0xC3, 0xA9]⟩)
      [0x6b] [0xC3, 0xA9] :=
  ⟨by decide, (put_stored standInJson_replacing [0x6b] [0xC3, 0xA9] .empty 1).mpr
    (Or.inl ⟨by decide, by decide, Or.inl (by decide)⟩)⟩

/-- **A put may be altered without an error**: a byte that is not UTF-8 becomes U+FFFD, and a body
is cut at the limit of the reader. -/
theorem altered_put : standInJson.Replacing ∧ ∀ J : Json, J.Replacing →
    (∃ key body, key ≠ [] ∧ body.length ≤ Http.maxBody ∧ Alters J key body) ∧
      ∃ key body, key ≠ [] ∧ Utf8.valid key = true ∧ Utf8.valid body = true ∧
        Alters J key body := by
  refine ⟨standInJson_replacing, fun J hJ => ⟨⟨[0x6b], [0xFF], by decide, by decide, ?_⟩, ?_⟩⟩
  -- a body of one byte that is not UTF-8
  · refine alters_of_not_preserved hJ (by decide) (fun hbody => ?_)
    exact absurd hbody.1 (by decide)
  -- and one that is longer than what is read
  · have hascii : ∀ b ∈ List.replicate (Http.maxBody + 1) (0x61 : UInt8), b < 0x80 := by
      intro b hb
      rw [List.eq_of_mem_replicate hb]
      decide
    refine ⟨[0x6b], List.replicate (Http.maxBody + 1) 0x61, by decide, by decide,
      Utf8.validFrom_of_ascii hascii, alters_of_not_preserved hJ (by decide) ?_⟩
    rintro ⟨_, hle | ⟨front, j, hj, _, heq⟩⟩
    · rw [List.length_replicate] at hle
      omega
    · -- there is no U+FFFD at the end of it
      have hmem : (0xEF : UInt8) ∈ List.replicate (Http.maxBody + 1) (0x61 : UInt8) := by
        rw [heq]
        rcases hj with rfl | rfl <;> simp [Utf8.replacements]
      exact absurd (hascii _ hmem) (by decide)

end Kv
