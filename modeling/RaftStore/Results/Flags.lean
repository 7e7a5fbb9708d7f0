import RaftStore.Cluster.Flags
import RaftStore.Results.Agreement

/-!
# The cluster that the flags describe

What `-peers` spells is what `parsePeers` reads: the form of the usage text gives the members back
(`parsePeers_peersFlag`), and so does any other way to write them (`Names.parsePeers_eq`). A cluster
whose members are started with one such flag, and its joiners with none, is of the kind that the
results about runs with membership changes are for (`flags_joinable`).
-/

namespace Cluster

open Raft

variable {σ : Type} {S : Setup σ} {m : AddrMap}

/-! ## Reading what is written -/

/-- A member that can be written in the flag: `,` and the first `=` separate, and white space at the
ends is lost. -/
structure Spellable (b : String × String) : Prop where
  id_tight : Tight b.1.toList
  addr_tight : Tight b.2.toList
  id_eq : '=' ∉ b.1.toList
  id_comma : ',' ∉ b.1.toList
  addr_comma : ',' ∉ b.2.toList

instance (b : String × String) : Decidable (Spellable b) :=
  decidable_of_iff (Tight b.1.toList ∧ Tight b.2.toList ∧ '=' ∉ b.1.toList ∧ ',' ∉ b.1.toList ∧
      ',' ∉ b.2.toList)
    ⟨fun h => ⟨h.1, h.2.1, h.2.2.1, h.2.2.2.1, h.2.2.2.2⟩,
      fun h => ⟨h.id_tight, h.addr_tight, h.id_eq, h.id_comma, h.addr_comma⟩⟩

/-- A member as it is written without white space. -/
def peerText (b : String × String) : List Char := b.1.toList ++ '=' :: b.2.toList

/-- The flag in the form that its usage text gives: `id=host:port,id=host:port`. -/
def peersFlag (m : AddrMap) : List Char := [','].intercalate (m.bindings.map peerText)

/-- Nothing but white space. -/
def Blank (s : List Char) : Prop := ∀ c ∈ s, isSpace c = true

instance (s : List Char) : Decidable (Blank s) := inferInstanceAs (Decidable (∀ c ∈ s, _))

/-- What a part of the flag may be, and what it says. White space may stand around an id and an
address, and a part without `=` says nothing. -/
inductive Spells : List Char → Option (String × String) → Prop where
  | member {a b c d : List Char} {p : String × String} (hp : Spellable p) (ha : Blank a)
      (hb : Blank b)
      (hc : Blank c) (hd : Blank d) :
      Spells ((a ++ p.1.toList ++ b) ++ '=' :: (c ++ p.2.toList ++ d)) (some p)
  | nothing {part : List Char} (hcomma : ',' ∉ part) (heq : '=' ∉ part) : Spells part none

/-- The parts name these members, in this order. -/
inductive Names : List (List Char) → List (String × String) → Prop where
  | nil : Names [] []
  | member {part : List Char} {parts : List (List Char)} {b : String × String}
      {bs : List (String × String)} (h : Spells part (some b)) (t : Names parts bs) :
      Names (part :: parts) (b :: bs)
  | nothing {part : List Char} {parts : List (List Char)} {bs : List (String × String)}
      (h : Spells part none) (t : Names parts bs) : Names (part :: parts) bs

/-- What is not white space is not in a blank text. -/
theorem Blank.not_mem {s : List Char} {c : Char} (h : Blank s) (hc : isSpace c = false) :
    c ∉ s := by
  intro hmem
  rw [h c hmem] at hc
  cases hc

/-- A part of the list has no comma in it. -/
theorem Spells.comma {part : List Char} {entry : Option (String × String)} (h : Spells part entry) :
    ',' ∉ part := by
  cases h with
  | member hp ha hb hc hd =>
    have hspace : isSpace ',' = false := by decide
    simp [hp.id_comma, hp.addr_comma, ha.not_mem hspace, hb.not_mem hspace, hc.not_mem hspace,
      hd.not_mem hspace]
  | nothing hcomma => exact hcomma

theorem spells_peerText {b : String × String} (h : Spellable b) : Spells (peerText b) (some b) := by
  have hnone : Blank [] := by simp [Blank]
  simpa [peerText] using Spells.member h hnone hnone hnone hnone

/-! ## One part -/

theorem parsePart_congr {s t : List Char} (h : trimSpace s = trimSpace t) (out : AddrMap) :
    parsePart out s = parsePart out t := by
  unfold parsePart
  rw [h]

/-- A part with a name and an address enters them, without the white space around each. -/
theorem parsePart_sep {id addr : List Char} (h : '=' ∉ id) (out : AddrMap) :
    parsePart out (id ++ '=' :: addr) =
      out.set (String.ofList (trimSpace id)) (String.ofList (trimSpace addr)) := by
  have hspace : isSpace '=' = false := by decide
  -- trimming the whole part does not reach across the separator
  have htrim : trimSpace (id ++ '=' :: addr) =
      id.dropWhile isSpace ++ '=' :: addr.rdropWhile isSpace := by
    unfold trimSpace
    rw [dropWhile_append_sep hspace, rdropWhile_append_sep hspace]
  have hfirst : '=' ∉ id.dropWhile isSpace :=
    fun hmem => h ((List.dropWhile_suffix isSpace).subset hmem)
  unfold parsePart
  simp [htrim, cut_append hfirst, trimSpace_dropWhile, trimSpace_rdropWhile]

/-- Without the separator there is nothing to cut. -/
theorem cut_eq_none {sep : Char} {s : List Char} (h : sep ∉ s) : cut sep s = none := by
  induction s with
  | nil => rfl
  | cons c rest ih =>
    simp only [List.mem_cons, not_or] at h
    simp [cut, Ne.symm h.1, ih h.2]

theorem mem_of_mem_trimSpace {c : Char} {s : List Char} (h : c ∈ trimSpace s) : c ∈ s :=
  (List.dropWhile_suffix isSpace).subset
    (( List.rdropWhile_prefix isSpace (l := s.dropWhile isSpace)).subset h)

/-- What one part says is what its round of the loop enters. -/
theorem Spells.parsePart_eq {part : List Char} {entry : Option (String × String)}
    (h : Spells part entry) (out : AddrMap) :
    parsePart out part = entry.elim out (fun b => out.set b.1 b.2) := by
  cases h with
  -- a member, with white space around its name and its address
  | @member a b c d p hp ha hb hc hd =>
    have hspace : isSpace '=' = false := by decide
    have hid : '=' ∉ a ++ p.1.toList ++ b := by
      simp [ha.not_mem hspace, hp.id_eq, hb.not_mem hspace]
    rw [parsePart_sep hid, hp.id_tight.trimSpace_pad ha hb, hp.addr_tight.trimSpace_pad hc hd]
    simp
  -- a part without `=` is skipped
  | nothing hcomma heq =>
    have hcut : cut '=' (trimSpace part) = none :=
      cut_eq_none (fun hmem => heq (mem_of_mem_trimSpace hmem))
    unfold parsePart
    simp [hcut]

/-! ## The list -/

/-- The list of a text whose last part was trimmed is read like that of the text itself. -/
theorem foldl_splitOn_rdropWhile {parts : List (List Char)} (hne : parts ≠ [])
    (hcomma : ∀ s ∈ parts, ',' ∉ s) (out : AddrMap) :
    ((([','].intercalate parts).rdropWhile isSpace).splitOn ',').foldl parsePart out =
      parts.foldl parsePart out := by
  induction parts generalizing out with
  | nil => exact absurd rfl hne
  | cons s rest ih =>
    have hs : ',' ∉ s := hcomma s List.mem_cons_self
    cases rest with
    -- the last part: only its end was trimmed
    | nil =>
      have hlast : ',' ∉ s.rdropWhile isSpace :=
        fun hmem => hs (( List.rdropWhile_prefix isSpace (l := s)).subset hmem)
      rw [List.intercalate_singleton, Segments.splitOn_of_notMem hlast]
      exact parsePart_congr (trimSpace_rdropWhile s) out
    | cons t more =>
      -- the comma keeps the white space at the end of the first part
      rw [List.intercalate_cons_cons, List.append_assoc, List.singleton_append,
        rdropWhile_append_sep (by decide), Segments.splitOn_append_sep hs, List.foldl_cons,
        List.foldl_cons]
      exact ih (by simp) (fun x hx => hcomma x (List.mem_cons_of_mem s hx)) _

/-- `parsePeers` reads the parts one after another. -/
theorem parsePeers_intercalate {parts : List (List Char)} (hne : parts ≠ [])
    (hcomma : ∀ s ∈ parts, ',' ∉ s) :
    parsePeers ([','].intercalate parts) = parts.foldl parsePart .empty := by
  -- `strings.TrimSpace` and the test for an empty text
  -- a text without anything in it is read like any other
  have hread (text : List Char) :
      parsePeers text = ((trimSpace text).splitOn ',').foldl parsePart .empty := by
    unfold parsePeers
    dsimp only
    split
    · next hempty => rw [hempty]; rfl
    · rfl
  rw [hread]
  cases parts with
  | nil => exact absurd rfl hne
  | cons s rest =>
    have hs : ',' ∉ s := hcomma s List.mem_cons_self
    have hfirst : ',' ∉ s.dropWhile isSpace :=
      fun hmem => hs ((List.dropWhile_suffix isSpace).subset hmem)
    -- trimming the list trims the start of its first part and the end of its last one
    cases rest with
    | nil =>
      have honly : ',' ∉ trimSpace s := fun hmem => hs (mem_of_mem_trimSpace hmem)
      rw [List.intercalate_singleton, Segments.splitOn_of_notMem honly]
      exact parsePart_congr (trimSpace_trimSpace s) .empty
    | cons t more =>
      unfold trimSpace
      rw [List.intercalate_cons_cons, List.append_assoc, List.singleton_append,
        dropWhile_append_sep (by decide), rdropWhile_append_sep (by decide),
        Segments.splitOn_append_sep hfirst, List.foldl_cons, List.foldl_cons,
        parsePart_congr (trimSpace_dropWhile s)]
      exact foldl_splitOn_rdropWhile (by simp) (fun x hx => hcomma x (List.mem_cons_of_mem s hx)) _

/-- The parts enter their members one after the other. -/
theorem Names.foldl_parsePart {parts : List (List Char)} {bs : List (String × String)}
    (h : Names parts bs) (out : AddrMap) :
    parts.foldl parsePart out = bs.foldl (fun m b => m.set b.1 b.2) out := by
  induction h generalizing out with
  | nil => rfl
  | member hpart _ ih => rw [List.foldl_cons, List.foldl_cons, hpart.parsePart_eq, ih]; rfl
  | nothing hpart _ ih => rw [List.foldl_cons, hpart.parsePart_eq, ih]; rfl

/-- No part that names a member has a comma in it. -/
theorem Names.comma {parts : List (List Char)} {bs : List (String × String)} (h : Names parts bs) :
    ∀ s ∈ parts, ',' ∉ s := by
  induction h with
  | nil => simp
  | member hpart _ ih => exact List.forall_mem_cons.mpr ⟨hpart.comma, ih⟩
  | nothing hpart _ ih => exact List.forall_mem_cons.mpr ⟨hpart.comma, ih⟩

/-- Of two addresses for one id the last counts, as in the map that the loop fills. -/
theorem Names.parsePeers_eq {parts : List (List Char)} {bs : List (String × String)}
    (h : Names parts bs) : parsePeers ([','].intercalate parts) = OrdMap.ofList bs := by
  by_cases hne : parts = []
  · -- nothing is written, and nothing is read
    subst hne
    cases h
    rfl
  · rw [parsePeers_intercalate hne h.comma, h.foldl_parsePart]
    rfl

/-- Members written without white space name themselves. -/
theorem names_peerText {bs : List (String × String)} (h : ∀ b ∈ bs, Spellable b) :
    Names (bs.map peerText) bs := by
  induction bs with
  | nil => exact .nil
  | cons b rest ih =>
    exact .member (spells_peerText (h b List.mem_cons_self))
      (ih (fun c hc => h c (List.mem_cons_of_mem b hc)))

/-- **What is spelled is read.** -/
theorem parsePeers_peersFlag (h : ∀ b ∈ m.bindings, Spellable b) :
    parsePeers (peersFlag m) = m := by
  show parsePeers ([','].intercalate (m.bindings.map peerText)) = m
  rw [(names_peerText h).parsePeers_eq, OrdMap.ofList_bindings]

theorem parsePeers_peersFlag_sample : peersFlag threeNodes = "n1=a1,n2=a2,n3=a3".toList ∧
    parsePeers (peersFlag threeNodes) = threeNodes :=
  ⟨by decide +kernel, parsePeers_peersFlag (by decide +kernel)⟩

/-! ## The members -/

/-- Whoever is listed takes the list as it is. -/
theorem peerAddrs_of_mem {f : Flags} (h : f.id ∈ (parsePeers f.peers).keys) :
    f.peerAddrs = parsePeers f.peers := by
  have hne := OrdMap.isEmpty_eq_false_of_mem h
  have hsome := (OrdMap.get?_isSome_iff _ _).mpr h
  simp [Flags.peerAddrs, hne, hsome]

/-- Without a list a node is alone. -/
theorem keys_peerAddrs_of_blank {f : Flags} (h : (parsePeers f.peers).isEmpty = true) :
    f.peerAddrs.keys = [f.id] := by
  have hself : ((OrdMap.single f.id f.raftAddr).get? f.id).isSome = true := by
    simp [OrdMap.get?, OrdMap.single]
  unfold Flags.peerAddrs
  simp only [h, if_true, hself]
  rfl

/-- A flag without anything in it lists nobody. -/
theorem isEmpty_parsePeers_of_blank {text : List Char} (h : Blank text) :
    (parsePeers text).isEmpty = true := by
  have htrim : trimSpace text = [] := by
    have hdrop : text.dropWhile isSpace = [] := List.dropWhile_eq_nil_iff.mpr h
    rw [trimSpace, hdrop, List.rdropWhile_nil]
  unfold parsePeers
  rw [htrim]
  rfl

/-- **The flags give a cluster that can grow.** Every member is started with one `-peers` whose
parts name the members, written as freely as `Spells` allows, and whoever joins is started without.
-/
theorem flags_joinable {f : String → Flags} {parts : List (List Char)}
    {members : List (String × String)} (hS : ∀ id, S.config id = (f id).config)
    (hid : ∀ id, (f id).id = id) (hparts : Names parts members)
    (hmembers : ∀ id ∈ members.map Prod.fst, (f id).peers = [','].intercalate parts)
    (hjoiners : ∀ id, id ∉ members.map Prod.fst → Blank (f id).peers)
    (hsome : members ≠ []) (hnamed : "" ∉ members.map Prod.fst) :
    Joinable S (.ofList members) := by
  have hkeys (id : String) : id ∈ (OrdMap.ofList members).keys ↔ id ∈ members.map Prod.fst :=
    OrdMap.mem_keys_ofList members id
  -- the configuration of a node has the members that its flags list
  have hpeers (id : String) : (S.config id).peerAddrs = (f id).peerAddrs := by
    rw [hS]
    rfl
  refine ⟨fun id => ?_, fun id hmem => ?_, fun id hnot => ?_, ?_, fun hmem => ?_⟩
  · rw [hS]
    exact hid id
  -- a member reads the whole list, and is on it
  · have hread : parsePeers (f id).peers = .ofList members := by
      rw [hmembers id ((hkeys id).mp hmem), hparts.parsePeers_eq]
    have hlisted : (f id).id ∈ (parsePeers (f id).peers).keys := by
      rw [hid, hread]
      exact hmem
    rw [hpeers, peerAddrs_of_mem hlisted, hread]
  -- every other node knows itself only
  · have hblank := hjoiners id (fun hmem => hnot ((hkeys id).mpr hmem))
    rw [hpeers, keys_peerAddrs_of_blank (isEmpty_parsePeers_of_blank hblank), hid]
  · obtain ⟨b, hb⟩ := List.exists_mem_of_ne_nil members hsome
    exact OrdMap.isEmpty_eq_false_of_mem ((hkeys b.1).mpr (List.mem_map_of_mem hb))
  · exact hnamed ((hkeys "").mp hmem)

/-! Three nodes with one flag, blanks in it included, and any others without. -/

/-- The members of the example. -/
def listedMembers : List (String × String) := [("n1", "a1"), ("n2", "a2"), ("n3", "a3")]

/-- Their parts of the flag, with an empty one. -/
def listedParts : List (List Char) := [" n1=a1".toList, " n2 = a2".toList, [], "n3=a3".toList]

/-- Members have the flag, the others have none. -/
def listedFlags (id : String) : Flags where
  id := id
  raftAddr := "a4"
  httpAddr := ""
  peers := if id ∈ listedMembers.map Prod.fst then [','].intercalate listedParts else []
  httpPeers := []
  join := false

/-- The nodes with these flags. -/
def listedSetup : Setup Unit := { sample with config := fun id => (listedFlags id).config }

/-- The parts name the members. -/
theorem names_listed : Names listedParts listedMembers := by
  have hnone : Blank [] := by simp [Blank]
  have hone : Blank [' '] := by simp [Blank, isSpace]
  refine .member ?_ (.member ?_ (.nothing (.nothing (by simp) (by simp)) (.member ?_ .nil)))
  · exact .member (p := ("n1", "a1")) (by decide +kernel) hone hnone hnone hnone
  · exact .member (p := ("n2", "a2")) (by decide +kernel) hone hone hone hnone
  · exact .member (p := ("n3", "a3")) (by decide +kernel) hnone hnone hnone hnone

theorem flags_joinable_sample :
    [','].intercalate listedParts = " n1=a1, n2 = a2,,n3=a3".toList ∧
      Joinable listedSetup (.ofList listedMembers) :=
  ⟨by decide +kernel, flags_joinable (f := listedFlags) (fun _ => rfl) (fun _ => rfl) names_listed
    (fun _ hmem => if_pos hmem)
    (fun _ hnot => by simp only [listedFlags, if_neg hnot]; simp [Blank])
    (by decide) (by decide)⟩

end Cluster
