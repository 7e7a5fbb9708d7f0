import Mathlib.Data.List.DropRight
import RaftStore.Raft.Boot

/-!
# The flags of a node

`main` reads the members of the cluster from the flag `-peers`, a list of `id=host:port` with commas
between them. White space is ignored, and so are parts without `=`. A node that is not listed counts
itself nevertheless.
-/

namespace Cluster

open Raft

/-- `unicode.IsSpace`. -/
def isSpace (c : Char) : Bool :=
  c.toNat ∈ [0x09, 0x0a, 0x0b, 0x0c, 0x0d, 0x20, 0x85, 0xa0, 0x1680, 0x2028, 0x2029, 0x202f, 0x205f,
    0x3000] || (0x2000 ≤ c.toNat && c.toNat ≤ 0x200a)

/-- `strings.TrimSpace`. -/
def trimSpace (s : List Char) : List Char := (s.dropWhile isSpace).rdropWhile isSpace

/-- `strings.Cut`: what stands before and after the first `sep`. -/
def cut (sep : Char) : List Char → Option (List Char × List Char)
  | [] => none
  | c :: rest =>
    if c = sep then some ([], rest)
    else (cut sep rest).map (fun p => (c :: p.1, p.2))

/-- One round of the loop of `parsePeers`. -/
def parsePart (out : AddrMap) (part : List Char) : AddrMap :=
  let part := trimSpace part
  if part = [] then out
  else
    match cut '=' part with
    | none => out
    | some (id, addr) => out.set (String.ofList (trimSpace id)) (String.ofList (trimSpace addr))

/-- `parsePeers`: `id=addr` pairs, with commas between them. -/
def parsePeers (s : List Char) : AddrMap :=
  let s := trimSpace s
  if s = [] then .empty else (s.splitOn ',').foldl parsePart .empty

/-- The flags that choose a node's configuration. -/
structure Flags where
  id : String
  raftAddr : String
  httpAddr : String
  peers : List Char
  httpPeers : List Char
  join : Bool

namespace Flags

/-- The members of a node that is started with these flags: itself at least. -/
def peerAddrs (f : Flags) : AddrMap :=
  let peers := parsePeers f.peers
  let peers := if peers.isEmpty then .single f.id f.raftAddr else peers
  if (peers.get? f.id).isSome then peers else peers.set f.id f.raftAddr

/-- The HTTP addresses that it knows, its own included. -/
def httpAddrs (f : Flags) : AddrMap :=
  let https := parsePeers f.httpPeers
  if f.httpAddr ≠ "" then https.set f.id f.httpAddr else https

/-- The configuration that `startNode` makes of them. -/
def config (f : Flags) : Config where
  id := f.id
  peerAddrs := f.peerAddrs
  snapshotThreshold := 32
  httpAddrs := f.httpAddrs
  join := f.join

end Flags

/-! ## White space and separators -/

/-- No white space at either end. -/
def Tight (s : List Char) : Prop := trimSpace s = s

instance (s : List Char) : Decidable (Tight s) := inferInstanceAs (Decidable (trimSpace s = s))

/-! Trimming looks no further than the next separator. -/

/-- From the left. -/
theorem dropWhile_append_sep {a b : List Char} {sep : Char} (hsep : isSpace sep = false) :
    (a ++ sep :: b).dropWhile isSpace = a.dropWhile isSpace ++ sep :: b := by
  induction a with
  | nil => simp [hsep]
  | cons c rest ih =>
    rw [List.cons_append, List.dropWhile_cons, List.dropWhile_cons]
    split
    · exact ih
    · rfl

/-- From the right. -/
theorem rdropWhile_append_sep {a b : List Char} {sep : Char} (hsep : isSpace sep = false) :
    (a ++ sep :: b).rdropWhile isSpace = a ++ sep :: b.rdropWhile isSpace := by
  have hreverse : (a ++ sep :: b).reverse = b.reverse ++ sep :: a.reverse := by simp
  unfold List.rdropWhile
  rw [hreverse, dropWhile_append_sep hsep]
  simp

theorem trimSpace_dropWhile (s : List Char) : trimSpace (s.dropWhile isSpace) = trimSpace s := by
  unfold trimSpace
  rw [List.dropWhile_idempotent]

/-- White space at the end goes. -/
theorem trimSpace_concat {s : List Char} {c : Char} (hc : isSpace c = true) :
    trimSpace (s ++ [c]) = trimSpace s := by
  unfold trimSpace
  rw [List.dropWhile_append]
  split
  · next hblank => simp [hc, List.isEmpty_iff.mp hblank]
  · exact List.rdropWhile_concat_pos isSpace _ c hc

/-- Trimming after the right end was trimmed. -/
theorem trimSpace_rdropWhile (s : List Char) : trimSpace (s.rdropWhile isSpace) = trimSpace s := by
  induction s using List.reverseRecOn with
  | nil => rfl
  | append_singleton rest c ih =>
    rw [List.rdropWhile_concat]
    split
    · next hc => rw [ih, trimSpace_concat hc]
    · rfl

theorem trimSpace_trimSpace (s : List Char) : trimSpace (trimSpace s) = trimSpace s := by
  show trimSpace ((s.dropWhile isSpace).rdropWhile isSpace) = trimSpace s
  rw [trimSpace_rdropWhile, trimSpace_dropWhile]

/-- White space around a text that has none at its ends is all that goes. -/
theorem Tight.trimSpace_pad {t a b : List Char} (ht : Tight t) (ha : ∀ c ∈ a, isSpace c = true)
    (hb : ∀ c ∈ b, isSpace c = true) : trimSpace (a ++ t ++ b) = t := by
  have hfront : trimSpace (a ++ t) = trimSpace t := by
    rw [← trimSpace_dropWhile, List.dropWhile_append_of_pos ha, trimSpace_dropWhile]
  induction b using List.reverseRecOn with
  | nil => rw [List.append_nil, hfront, ht]
  | append_singleton rest c ih =>
    rw [← List.append_assoc, trimSpace_concat (hb c (by simp))]
    exact ih (fun x hx => hb x (by simp [hx]))

/-- Cutting at the first separator. -/
theorem cut_append {a b : List Char} {sep : Char} (ha : sep ∉ a) :
    cut sep (a ++ sep :: b) = some (a, b) := by
  induction a with
  | nil => simp [cut]
  | cons c rest ih =>
    simp only [List.mem_cons, not_or] at ha
    simp [cut, Ne.symm ha.1, ih ha.2]

end Cluster
