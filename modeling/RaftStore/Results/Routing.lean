import Mathlib.Data.List.TakeWhile
import RaftStore.Kv.Http

/-!
# Forwarded requests reach their key

`forwardToLeader` writes the decoded path of a request into the URL of the one it sends. A key that
has a character with a meaning in URLs is read differently by the leader, or no request for it
arrives (`misrouted_key`). The other keys arrive, with the method and the body, and they are the
only ones that do (`forward_preserves`).

* `muxRoute_eq_handler_iff`: the paths that the mux hands to the handler of `/kv/{key}`;
* `clientDo_eq`: a client is redirected once at most;
* `forwardToLeader_eq`: what is sent depends on the key alone, given the leader's address, which is
  why the cluster's steps may use `forwardedKey`;
* `forwardedKey_eq_self_iff`: the keys that stay as they are.
-/

namespace Http

open Raft (Bytes)
open Percent Segments

variable {c : Redirect} {m m' : Method} {u u' : URL} {r : Request} {host key : Bytes}

/-! ## Parsed URLs -/

theorem parsePath_eq {raw path : Bytes} (h : unescape raw = some path) (query : Bytes) :
    parsePath raw query = some ⟨path, raw, query, h⟩ := by
  unfold parsePath
  split
  · next path' h' =>
    have hpath : path' = path := Option.some.inj (h'.symm.trans h)
    subst hpath
    rfl
  · next h' =>
    rw [h'] at h
    cases h

theorem of_parsePath {raw query : Bytes} (h : parsePath raw query = some u) :
    unescape raw = some u.path ∧ u.raw = raw ∧ u.query = query := by
  unfold parsePath at h
  split at h
  · next path hpath =>
    cases h
    exact ⟨hpath, rfl, rfl⟩
  · cases h

theorem escapedPath_of_encoded (h : u.raw.all encodedByte = true) : u.escapedPath = u.raw :=
  if_pos h

theorem escapedPath_of_not_encoded (h : ¬ u.raw.all encodedByte = true) :
    u.escapedPath = escape pathByte u.path := if_neg h

/-- The escaped path stands for the path. -/
theorem unescape_escapedPath (u : URL) : unescape u.escapedPath = some u.path := by
  by_cases hraw : u.raw.all encodedByte = true
  · rw [escapedPath_of_encoded hraw]
    exact u.parsed
  · rw [escapedPath_of_not_encoded hraw]
    exact unescape_escape (by decide) u.path

/-- A URL that is sent and parsed again keeps its escaped path. -/
theorem parsePath_escapedPath (u : URL) :
    ∃ u', parsePath u.escapedPath u.query = some u' ∧ u'.escapedPath = u.escapedPath ∧
      u'.query = u.query := by
  refine ⟨_, parsePath_eq (unescape_escapedPath u) _, ?_, rfl⟩
  -- it is sent as it was, or encoded anew
  by_cases hsent : u.escapedPath.all encodedByte = true
  · exact escapedPath_of_encoded hsent
  · -- then it is the encoding of the path already
    have hraw : ¬ u.raw.all encodedByte = true :=
      fun hraw => hsent (by rw [escapedPath_of_encoded hraw]; exact hraw)
    exact (escapedPath_of_not_encoded hsent).trans (escapedPath_of_not_encoded hraw).symm

@[simp] theorem escapedPath_redirectURL (path query : Bytes) :
    (redirectURL path query).escapedPath = escape pathByte path := ite_self _

theorem escape_kvPath (key : Bytes) :
    escape pathByte (kvPath ++ key) = kvPath ++ escape pathByte key := by
  rw [escape_append, escape_of_kept (by decide +kernel : ∀ b ∈ kvPath, pathByte b = true)]

theorem unescape_kvPath (seg : Bytes) :
    unescape (kvPath ++ seg) = (unescape seg).map (kvPath ++ ·) :=
  unescape_append (by decide +kernel) seg

/-! ## Routes -/

theorem muxKey_eq_some_iff : muxKey u = some key ↔ muxRoute u = .handler key := by
  unfold muxKey
  split
  · next k hk => rw [hk, Option.some.injEq, Route.handler.injEq]
  · next hno => exact ⟨fun h => (by cases h), fun h => absurd h (hno key)⟩

/-- **The handler of `/kv/{key}` runs** for two proper segments, `kv` and the key. -/
theorem muxRoute_eq_handler_iff : muxRoute u = .handler key ↔
    ∃ first seg, u.escapedPath = join [first, seg] ∧ Proper first ∧ Proper seg ∧
      unescape first = some kvSegment ∧ unescape seg = some key ∧ key ≠ [slash] := by
  constructor
  -- from a route to the path that takes it
  · intro h
    unfold muxRoute at h
    dsimp only at h
    split at h
    · cases h
    next hclean =>
    rw [not_not] at hclean
    split at h
    · next a first seg hsplit =>
      split at h
      · next hgood =>
        obtain ⟨hfirst, hne, hslash⟩ := hgood
        cases h
        obtain ⟨hpath, hproper, hproper'⟩ := eq_join_of_clean hclean hsplit hne
        -- a segment of an encoding is one
        have hread : ∀ s ∈ u.escapedPath.splitOn slash, unescape s = some (pathUnescape s) := by
          intro s hs
          obtain ⟨x, hx, _⟩ := unescape_of_mem_splitOn (unescape_escapedPath u) hs
          unfold pathUnescape
          rw [hx, Option.getD_some]
        refine ⟨first, seg, hpath, hproper, hproper', ?_, hread seg (by rw [hsplit]; simp), hslash⟩
        rw [hread first (by rw [hsplit]; simp), hfirst]
      · cases h
    · cases h
  -- and back: two proper segments, the first of which is `kv`
  · rintro ⟨first, seg, hpath, hfirst, hseg, hkv, hkey, hne⟩
    have hproper : ∀ s ∈ [first, seg], Proper s := by
      intro s hs
      simp only [List.mem_cons, List.not_mem_nil, or_false] at hs
      rcases hs with rfl | rfl
      · exact hfirst
      · exact hseg
    have hdecoded : ∀ {s x : Bytes}, unescape s = some x → pathUnescape s = x := by
      intro s x h
      unfold pathUnescape
      rw [h, Option.getD_some]
    unfold muxRoute
    dsimp only
    rw [hpath, cleanPath_join (by simp) hproper, if_neg (by simp),
      splitOn_join (by simp) (fun s hs => (hproper s hs).slash)]
    dsimp only
    rw [hdecoded hkv, hdecoded hkey, if_pos ⟨rfl, hseg.nonempty, hne⟩]

/-- **The decoded path of a routed request** is `/kv/` and the key. -/
theorem path_of_muxKey (h : muxKey u = some key) : u.path = kvPath ++ key ∧ key ≠ [] := by
  obtain ⟨first, seg, hpath, _, hseg, hkv, hkey, _⟩ :=
    muxRoute_eq_handler_iff.mp (muxKey_eq_some_iff.mp h)
  have hdecoded := unescape_escapedPath u
  rw [hpath, join_cons, unescape_cons (by decide), unescape_append_of_eq_some hkv, join_cons,
    unescape_cons (by decide), unescape_append_of_eq_some hkey] at hdecoded
  simp only [join, List.flatMap_nil, unescape_nil, Option.map_some, List.append_nil,
    Option.some.injEq] at hdecoded
  refine ⟨hdecoded.symm, ?_⟩
  rintro rfl
  exact hseg.nonempty (eq_nil_of_unescape hkey)

/-- What stands behind `/kv/` in the escaped path of a routed request. -/
theorem proper_of_muxKey {seg : Bytes} (h : muxKey u = some key)
    (hpath : u.escapedPath = kvPath ++ seg) : Proper seg := by
  obtain ⟨first, seg', hjoin, hfirst, hseg, _⟩ :=
    muxRoute_eq_handler_iff.mp (muxKey_eq_some_iff.mp h)
  have heq : first ++ slash :: seg' = kvSegment ++ slash :: seg := by
    have := hjoin.symm.trans hpath
    simpa [join, kvPath, kvSegment, slash] using this
  obtain ⟨_, _, rfl⟩ := (List.append_cons_inj_of_notMem hfirst.slash hseg.slash).mp heq
  exact hseg

/-- A path that ends in an encoding of the key is routed to it. -/
theorem muxKey_of_escapedPath {seg : Bytes} (hpath : u.escapedPath = kvPath ++ seg)
    (hseg : Proper seg) (hkey : unescape seg = some key) (hne : key ≠ [slash]) :
    muxKey u = some key := by
  refine muxKey_eq_some_iff.mpr (muxRoute_eq_handler_iff.mpr
    ⟨kvSegment, seg, ?_, ⟨by decide, by decide, by decide, by decide⟩, hseg, rfl, hkey, hne⟩)
  rw [hpath]
  simp [join, kvPath, kvSegment, slash]

theorem of_muxRoute_redirect {path : Bytes} (h : muxRoute u = .redirect path) :
    path = cleanPath u.escapedPath ∧ cleanPath u.escapedPath ≠ u.escapedPath := by
  unfold muxRoute at h
  dsimp only at h
  split at h
  · next hne =>
    cases h
    exact ⟨rfl, hne⟩
  · split at h
    · split at h <;> cases h
    · cases h

/-! ## Clients -/

/-- The request that the server acts on: the one it has read, or the one it redirects to. -/
def Request.settled (c : Redirect) (r : Request) : Request :=
  match muxRoute r.url with
  | .redirect path => r.redirected c path
  | _ => r

theorem received_eq (hq : 0x20 ∉ r.url.query) :
    ∃ u, r.received = some { r with url := u } ∧ u.escapedPath = r.url.escapedPath ∧
      u.query = r.url.query := by
  obtain ⟨u, hu, hesc, hquery⟩ := parsePath_escapedPath r.url
  unfold Request.received
  rw [if_neg hq, hu]
  exact ⟨u, rfl, hesc, hquery⟩

theorem url_redirected (c : Redirect) (r : Request) (path : Bytes) :
    (r.redirected c path).url = redirectURL path r.url.query := by
  cases c <;> rfl

theorem received_redirected (hq : 0x20 ∉ r.url.query) (path : Bytes) :
    (r.redirected c path).received = some (r.redirected c path) := by
  have hparse : parsePath (escape pathByte path) r.url.query =
      some (redirectURL path r.url.query) := parsePath_eq (unescape_escape (by decide) path) _
  unfold Request.received
  rw [url_redirected, if_neg (show 0x20 ∉ (redirectURL path r.url.query).query from hq),
    escapedPath_redirectURL]
  show (parsePath (escape pathByte path) r.url.query).map _ = _
  rw [hparse, Option.map_some]
  cases c <;> rfl

/-- The encoding of a clean path is clean, so the new request is not redirected. -/
theorem settled_redirected {path : Bytes} (h : muxRoute r.url = .redirect path) :
    ∀ path', muxRoute (r.redirected c path).url ≠ .redirect path' := by
  intro path' hagain
  rw [url_redirected, (of_muxRoute_redirect h).1] at hagain
  apply (of_muxRoute_redirect hagain).2
  rw [escapedPath_redirectURL]
  exact cleanPath_escape_cleanPath (by decide) (by decide) _

/-- **A client is redirected once at most**, so the limit of `http.Client` is never reached. -/
theorem clientDo_eq (c : Redirect) (r : Request) :
    clientDo c maxRequests r = r.received.map (Request.settled c) := by
  -- a blank in the query, and the server refuses the request
  by_cases hq : 0x20 ∈ r.url.query
  · have hnone : r.received = none := if_pos hq
    unfold maxRequests clientDo
    rw [hnone]
    rfl
  obtain ⟨u, hu, _, hquery⟩ := received_eq hq
  unfold maxRequests clientDo Request.settled
  rw [hu, Option.bind_some, Option.map_some]
  -- the request arrives, and is answered or redirected once
  dsimp only
  cases hroute : muxRoute u with
  | handler key => rfl
  | other => rfl
  -- the second request is not redirected again: its path is clean
  | redirect path =>
    have hq' : 0x20 ∉ ({ r with url := u } : Request).url.query := by
      show 0x20 ∉ u.query
      rwa [hquery]
    dsimp only
    rw [clientDo, received_redirected hq', Option.bind_some]
    split
    · next hagain =>
      exact absurd hagain (settled_redirected (r := { r with url := u }) hroute _)
    · rfl

/-! ## URL strings -/

/-- No byte of the string ends the path of a URL, or is refused in one. -/
def Inert (s : Bytes) : Prop := ∀ b ∈ s, b ≠ 0x23 ∧ b ≠ 0x3F ∧ isControl b = false

theorem Inert.append {s t : Bytes} (hs : Inert s) (ht : Inert t) : Inert (s ++ t) := by
  intro b hb
  rcases List.mem_append.mp hb with hb | hb
  · exact hs b hb
  · exact ht b hb

theorem inert_scheme : Inert scheme := by
  unfold Inert
  decide +kernel

theorem inert_kvPath : Inert kvPath := by
  unfold Inert
  decide +kernel

theorem cut_append {b : UInt8} {s : Bytes} (h : ∀ x ∈ s, x ≠ b) (t : Bytes) :
    cut b (s ++ t) = (s ++ (cut b t).1, (cut b t).2) := by
  have hne : ∀ x ∈ s, (x != b) = true := fun x hx => bne_iff_ne.mpr (h x hx)
  unfold cut
  rw [List.takeWhile_append_of_pos hne, List.dropWhile_append_of_pos hne]

theorem hierarchical_append {s : Bytes} (h : Inert s) (t : Bytes) :
    hierarchical (s ++ t) = (hierarchical t).map (fun p => (s ++ p.1, p.2)) := by
  -- bytes that mean nothing to the parser stay in front
  have hctl : s.any isControl = false :=
    List.any_eq_false.mpr (fun b hb => by rw [(h b hb).2.2]; decide)
  unfold hierarchical
  rw [cut_append (fun b hb => (h b hb).1)]
  dsimp only
  rw [List.any_append, hctl, Bool.false_or, cut_append (fun b hb => (h b hb).2.1)]
  split <;> rfl

theorem hierarchical_of_inert {s : Bytes} (h : Inert s) : hierarchical s = some (s, []) := by
  have hnil : hierarchical [] = some ([], []) := by decide +kernel
  have := hierarchical_append h []
  rwa [List.append_nil, hnil, Option.map_some, List.append_nil] at this

/-- The path that is read of a string begins it, and is all of it only if nothing in it has a
meaning of its own. -/
theorem of_hierarchical {s p q : Bytes} (h : hierarchical s = some (p, q)) :
    p <+: s ∧ (p = s → Inert s) := by
  unfold hierarchical at h
  dsimp only at h
  split at h
  · cases h
  next hgood =>
  rw [not_or] at hgood
  cases h
  have hfront : (cut 0x23 s).1 <+: s := List.takeWhile_prefix _
  have hpath : (cut 0x3F (cut 0x23 s).1).1 <+: (cut 0x23 s).1 := List.takeWhile_prefix _
  refine ⟨hpath.trans hfront, fun heq b hb => ?_⟩
  -- then neither of the two cuts has taken anything off
  have hs : (cut 0x23 s).1 = s :=
    hfront.eq_of_length_le (le_of_eq_of_le (congrArg List.length heq.symm) hpath.length_le)
  rw [hs] at heq
  have hhash := List.takeWhile_eq_self_iff.mp hs b hb
  have hquery := List.takeWhile_eq_self_iff.mp heq b hb
  have hctl := hgood.1
  rw [hs, List.any_eq_true] at hctl
  exact ⟨by simpa using hhash, by simpa using hquery,
    Bool.eq_false_iff.mpr (fun hb' => hctl ⟨b, hb, hb'⟩)⟩

/-- The bytes of a host's name: letters, digits and `-._`. -/
def nameByte (b : UInt8) : Bool :=
  (0x30 ≤ b && b ≤ 0x39) || (0x41 ≤ b && b ≤ 0x5A) || (0x61 ≤ b && b ≤ 0x7A) ||
    b ∈ [0x2D, 0x2E, 0x5F]

/-- A leader's address, as `LeaderHTTP` has it: the name of a host, and a port behind a colon. -/
structure PlainHost (host : Bytes) : Prop where
  nonempty : host ≠ []
  name : ∀ b ∈ (cut 0x3A host).1, nameByte b = true
  port : ∀ b ∈ (cut 0x3A host).2, 0x30 ≤ b ∧ b ≤ 0x39

theorem nameByte_inert (b : UInt8) (h : nameByte b = true ∨ 0x30 ≤ b ∧ b ≤ 0x39 ∨ b = 0x3A) :
    (b ≠ 0x23 ∧ b ≠ 0x3F ∧ isControl b = false) ∧ b ≠ slash := by
  have hall : ∀ i : Fin 256, nameByte (UInt8.ofFin i) = true ∨
      0x30 ≤ UInt8.ofFin i ∧ UInt8.ofFin i ≤ 0x39 ∨ UInt8.ofFin i = 0x3A →
      (UInt8.ofFin i ≠ 0x23 ∧ UInt8.ofFin i ≠ 0x3F ∧ isControl (UInt8.ofFin i) = false) ∧
        UInt8.ofFin i ≠ slash := by decide +kernel
  exact hall b.toFin h

theorem PlainHost.bytes (h : PlainHost host) :
    ∀ b ∈ host, (b ≠ 0x23 ∧ b ≠ 0x3F ∧ isControl b = false) ∧ b ≠ slash := by
  intro b hb
  apply nameByte_inert
  -- the name, then the port behind a colon
  rw [← List.takeWhile_append_dropWhile (p := (· != 0x3A)) (l := host), List.mem_append] at hb
  rcases hb with hb | hb
  · exact Or.inl (h.name b hb)
  · right
    cases hrest : host.dropWhile (· != 0x3A) with
    | nil =>
      rw [hrest] at hb
      cases hb
    | cons x rest =>
      have hport : (cut 0x3A host).2 = rest := by
        unfold cut
        rw [hrest]
        rfl
      have hcolon : x = 0x3A := by
        have := List.head?_dropWhile_not (· != (0x3A : UInt8)) host
        rw [hrest] at this
        simpa using this
      rw [hrest] at hb
      rcases List.mem_cons.mp hb with rfl | hb
      · exact Or.inr hcolon
      · exact Or.inl (h.port b (hport ▸ hb))

/-- What follows the host in a URL string is parsed as a path. -/
theorem newRequest_host {path : Bytes} (h : PlainHost host) :
    newRequest (scheme ++ host ++ (kvPath ++ path)) =
      ((hierarchical (kvPath ++ path)).bind (fun p => parsePath p.1 p.2)).map
        (fun u => (host, u)) := by
  have hfront : Inert (scheme ++ host) := inert_scheme.append (fun b hb => (h.bytes b hb).1)
  have hne : ∀ b ∈ host, (b != slash) = true := fun b hb => bne_iff_ne.mpr (h.bytes b hb).2
  unfold newRequest
  rw [hierarchical_append hfront, hierarchical_append inert_kvPath]
  -- the front is the scheme and the host, up to the first slash of the path
  cases hierarchical path with
  | none => rfl
  | some rest =>
    simp only [Option.map_some, Option.bind_some, List.append_assoc]
    rw [if_pos (List.isPrefixOf_iff_prefix.mpr (List.prefix_append _ _)), List.drop_left,
      List.takeWhile_append_of_pos hne, List.dropWhile_append_of_pos hne]
    have htake : (kvPath ++ rest.1).takeWhile (· != slash) = [] := rfl
    have hdrop : (kvPath ++ rest.1).dropWhile (· != slash) = kvPath ++ rest.1 := rfl
    rw [htake, hdrop, List.append_nil]

/-! ## Forwarding -/

/-- The leader's limit cuts nothing that the follower's has left. -/
theorem content_content (r : Request) (u : URL) :
    ({ method := r.method, url := u, body := r.content } : Request).content = r.content := by
  unfold Request.content
  -- a body that was cut at the limit is not cut again
  cases r.method with
  | get => rfl
  | put =>
    show readBody (readBody r.body) = readBody r.body
    unfold readBody
    rw [List.take_take, Nat.min_self]

/-- The body that a handler of a forwarded request reads. -/
def Request.passedOn (r : Request) (m : Method) : Bytes :=
  ({ r with method := m, body := r.content } : Request).content

/-- The body of a request has no part in its routing. -/
theorem handled_settled {r₀ : Request}
    (h : r₀ = ({ method := r.method, url := u, body := [] } : Request).settled c) :
    handled (({ r with url := u, body := r.content } : Request).settled c) =
      (muxKey r₀.url).map (fun key => (r₀.method, key, r.passedOn r₀.method)) := by
  subst h
  unfold Request.settled
  dsimp only
  split
  · cases c <;> rfl
  · rfl

/-- **What is sent depends on the key alone**: the leader's handlers see it as `forwardedKey`
says. -/
theorem forwardToLeader_eq (h : PlainHost host) (hkey : muxKey r.url = some key) :
    (forwardToLeader c host r).map (fun p => (p.1, p.2.bind handled)) =
      (forwardedKey c r.method key).map (fun k =>
        (host, k.map (fun k => (k.1, k.2, r.passedOn k.1)))) := by
  unfold forwardToLeader forwardedKey
  rw [(path_of_muxKey hkey).1, newRequest_host h]
  cases (hierarchical (kvPath ++ key)).bind (fun p => parsePath p.1 p.2) with
  | none => rfl
  | some u =>
    simp only [Option.map_some, Option.some.injEq, Prod.mk.injEq, true_and, clientDo_eq]
    -- the URL's query may hold a blank: then nothing arrives, whatever the body
    by_cases hq : 0x20 ∈ u.query
    · have hnone : ∀ body, ({ method := r.method, url := u, body := body } : Request).received =
          none := fun body => if_pos hq
      rw [hnone, hnone]
      rfl
    · obtain ⟨u', hu', _⟩ := parsePath_escapedPath u
      have hsome : ∀ body, ({ method := r.method, url := u, body := body } : Request).received =
          some { method := r.method, url := u', body := body } := by
        intro body
        unfold Request.received
        rw [if_neg hq, hu', Option.map_some]
      rw [hsome, hsome]
      simp only [Option.map_some, Option.bind_some]
      rw [handled_settled rfl, Option.map_map]
      rfl

/-! ## Keys -/

/-- A key that is read as it is written: no `%`, `#`, `?` or `/`, no control characters, and not
a dot segment. -/
structure PlainKey (key : Bytes) : Prop where
  bytes : ∀ b ∈ key, b ≠ 0x25 ∧ b ≠ 0x23 ∧ b ≠ 0x3F ∧ b ≠ slash ∧ isControl b = false
  dot : key ≠ dot
  dots : key ≠ dots

theorem PlainKey.proper (h : PlainKey key) (hne : key ≠ []) : Proper key :=
  ⟨hne, h.dot, h.dots, fun hmem => (h.bytes _ hmem).2.2.2.1 rfl⟩

theorem forwardedKey_of_plain (h : PlainKey key) (hne : key ≠ []) :
    forwardedKey c m key = some (some (m, key)) := by
  have hpct : ∀ b ∈ key, b ≠ 0x25 := fun b hb => (h.bytes b hb).1
  have hproper := h.proper hne
  have hslash : key ≠ [slash] := by
    rintro rfl
    exact hproper.slash (by simp)
  -- nothing in the key is read as anything but the path
  have hinert : Inert (kvPath ++ key) := by
    refine inert_kvPath.append (fun b hb => ?_)
    obtain ⟨_, hhash, hquery, _, hctl⟩ := h.bytes b hb
    exact ⟨hhash, hquery, hctl⟩
  have hpath : unescape (kvPath ++ key) = some (kvPath ++ key) := by
    rw [unescape_kvPath, unescape_of_plain hpct, Option.map_some]
  obtain ⟨u, hu, hesc, _⟩ := received_eq
    (r := { method := m, url := ⟨kvPath ++ key, kvPath ++ key, [], hpath⟩, body := [] }) (by simp)
  have hkey : muxKey u = some key := by
    by_cases hall : (kvPath ++ key).all encodedByte = true
    · replace hesc := hesc.trans (escapedPath_of_encoded hall)
      exact muxKey_of_escapedPath hesc hproper (unescape_of_plain hpct) hslash
    · -- the key is sent encoded
      replace hesc := hesc.trans (escapedPath_of_not_encoded hall)
      rw [escape_kvPath] at hesc
      exact muxKey_of_escapedPath hesc (hproper.escape (by decide))
        (unescape_escape (by decide) key) hslash
  have hroute := muxKey_eq_some_iff.mp hkey
  unfold forwardedKey
  rw [hierarchical_of_inert hinert, Option.bind_some, parsePath_eq hpath, Option.map_some,
    clientDo_eq, hu, Option.map_some, Option.bind_some]
  unfold Request.settled
  rw [hroute]
  dsimp only
  rw [hkey, Option.map_some]

/-- What is sent for a key: the path is read of the beginning of the key, and is sent as it is or
encoded again. -/
theorem exists_of_forwardedKey (h : forwardedKey c m key = some (some (m', key))) :
    ∃ front path seg u, front <+: key ∧ (front = key → Inert key) ∧ unescape front = some path ∧
      (seg = front ∨ seg = escape pathByte path) ∧ u.escapedPath = kvPath ++ seg ∧
      (muxKey u = some key ∨ ∃ query, cleanPath u.escapedPath ≠ u.escapedPath ∧
        muxKey (redirectURL (cleanPath u.escapedPath) query) = some key) := by
  unfold forwardedKey at h
  obtain ⟨u, hu, hsent⟩ := Option.map_eq_some_iff.mp h
  rw [hierarchical_append inert_kvPath] at hu
  obtain ⟨⟨p, q⟩, hpq, hparse⟩ := Option.bind_eq_some_iff.mp hu
  obtain ⟨⟨front, q'⟩, hfront, heq⟩ := Option.map_eq_some_iff.mp hpq
  cases heq
  -- what was parsed is the path up to `?` or `#`
  obtain ⟨hpath, hraw, _⟩ := of_parsePath hparse
  rw [unescape_kvPath] at hpath
  obtain ⟨path, hread, heq⟩ := Option.map_eq_some_iff.mp hpath
  obtain ⟨hpre, hinert⟩ := of_hierarchical hfront
  -- the server has read the request, and acts on it or on the one it redirects to
  obtain ⟨r₂, hr₂, hkey⟩ := Option.bind_eq_some_iff.mp hsent
  obtain ⟨k, hmux, hk⟩ := Option.map_eq_some_iff.mp hkey
  cases hk
  rw [clientDo_eq] at hr₂
  obtain ⟨r₁, hr₁, rfl⟩ := Option.map_eq_some_iff.mp hr₂
  have hq : 0x20 ∉ u.query := by
    intro hq
    rw [show ({ method := m, url := u, body := [] } : Request).received = none from
      if_pos hq] at hr₁
    cases hr₁
  obtain ⟨u', hu', hesc, _⟩ := received_eq (r := { method := m, url := u, body := [] }) hq
  rw [hr₁] at hu'
  cases hu'
  have hroute : muxKey u' = some key ∨ ∃ query, cleanPath u'.escapedPath ≠ u'.escapedPath ∧
      muxKey (redirectURL (cleanPath u'.escapedPath) query) = some key := by
    unfold Request.settled at hmux
    split at hmux
    · next path' hredirect =>
      obtain ⟨rfl, hne⟩ := of_muxRoute_redirect hredirect
      rw [url_redirected] at hmux
      exact Or.inr ⟨_, hne, hmux⟩
    · exact Or.inl hmux
  -- the path is sent as it stands, or encoded
  by_cases hall : u.raw.all encodedByte = true
  · exact ⟨front, path, front, u', hpre, hinert, hread, Or.inl rfl,
      hesc.trans ((escapedPath_of_encoded hall).trans hraw), hroute⟩
  · have hencoded := hesc.trans (escapedPath_of_not_encoded hall)
    rw [← heq, escape_kvPath] at hencoded
    exact ⟨front, path, _, u', hpre, hinert, hread, Or.inr rfl, hencoded, hroute⟩

/-- A key that is handled without a redirect is plain: reading shortens a key, so nothing was cut
off it and nothing in it was decoded. -/
theorem plain_of_handler {front path seg : Bytes} (hpre : front <+: key)
    (hinert : front = key → Inert key) (hread : unescape front = some path)
    (hseg : seg = front ∨ seg = escape pathByte path) (hesc : u.escapedPath = kvPath ++ seg)
    (hkey : muxKey u = some key) : PlainKey key := by
  have hproper := proper_of_muxKey hkey hesc
  have hpath : path = key := by
    have hback : unescape seg = some path := by
      rcases hseg with rfl | rfl
      · exact hread
      · exact unescape_escape (by decide) path
    have hdecoded := unescape_escapedPath u
    rw [hesc, unescape_kvPath, hback, Option.map_some, (path_of_muxKey hkey).1] at hdecoded
    exact List.append_cancel_left (Option.some.inj hdecoded)
  subst hpath
  -- decoding has not shortened it, so it has no `%`
  obtain ⟨hle, hpct⟩ := length_of_unescape hread
  have hfront : front = path := hpre.eq_of_length_le hle
  subst hfront
  -- no slash, and neither `.` nor `..`: the encoding would have kept them
  have hcontent : slash ∉ front ∧ front ≠ dot ∧ front ≠ dots := by
    rcases hseg with rfl | rfl
    · exact ⟨hproper.slash, hproper.dot, hproper.dots⟩
    · refine ⟨fun hmem => hproper.slash (mem_escape_of_kept hmem (by decide)), ?_, ?_⟩
      · rintro rfl
        exact hproper.dot (by decide +kernel)
      · rintro rfl
        exact hproper.dots (by decide +kernel)
  refine ⟨fun b hb => ?_, hcontent.2.1, hcontent.2.2⟩
  obtain ⟨hhash, hquery, hctl⟩ := hinert rfl b hb
  exact ⟨fun heq => hpct rfl (heq ▸ hb), hhash, hquery, fun heq => hcontent.1 (heq ▸ hb), hctl⟩

theorem splitOn_kvPath (rest : Bytes) :
    (kvPath ++ rest).splitOn slash = [] :: kvSegment :: rest.splitOn slash := by
  rw [show kvPath ++ rest = [] ++ slash :: (kvSegment ++ slash :: rest) from rfl,
    splitOn_append_sep (by simp), splitOn_append_sep (by decide)]

/-- The key of a cleaned path is a segment of the path. -/
theorem mem_splitOn_of_clean {seg : Bytes} (hpath : cleanPath (kvPath ++ seg) = kvPath ++ key)
    (hne : key ≠ []) (hslash : slash ∉ key) : key ∈ (kvPath ++ seg).splitOn slash := by
  -- a clean path is the root, or made of proper segments, possibly with a slash at the end
  rcases cleanPath_cases (kvPath ++ seg) with heq | ⟨segs, hsegs, hall, heq | heq⟩
  · rw [heq] at hpath
    exact absurd (congrArg List.length hpath) (by simp [kvPath])
  · have hjoin := splitOn_join hsegs (fun s hs => (hall s hs).2.slash)
    rw [← heq, hpath, splitOn_kvPath, splitOn_of_notMem hslash] at hjoin
    exact (hall key (by simp [← (List.cons.inj hjoin).2])).1
  · have hlast : (kvPath ++ key).getLast? = some slash := by
      rw [← hpath, heq, List.getLast?_concat]
    rw [List.getLast?_append_of_ne_nil _ hne] at hlast
    exact absurd (List.mem_of_getLast? hlast) hslash

/-- The beginnings of the key `kv` all give clean paths. -/
theorem clean_of_kv {front path : Bytes} (hpre : front <+: kvSegment)
    (hread : unescape front = some path) : cleanPath (kvPath ++ front) = kvPath ++ front ∧
      cleanPath (kvPath ++ escape pathByte path) = kvPath ++ escape pathByte path := by
  obtain ⟨rest, hrest⟩ := hpre
  rcases front with _ | ⟨a, _ | ⟨b, _ | ⟨b', front⟩⟩⟩
  · cases hread
    decide +kernel
  all_goals
    simp only [kvSegment, List.cons_append, List.nil_append, List.cons.injEq, reduceCtorEq,
      and_false] at hrest
  · obtain ⟨rfl, _⟩ := hrest
    cases hread
    decide +kernel
  · obtain ⟨rfl, rfl, _⟩ := hrest
    cases hread
    decide +kernel

/-- **No key survives a redirect.** It would be a segment of the path that is cleaned. What the path
stands for is no longer than what the key does, so the key would be all of the path behind `/kv/`,
which would be clean. -/
theorem clean_of_redirect {front path seg query : Bytes} (hpre : front <+: key)
    (hread : unescape front = some path) (hseg : seg = front ∨ seg = escape pathByte path)
    (hkey : muxKey (redirectURL (cleanPath (kvPath ++ seg)) query) = some key) :
    cleanPath (kvPath ++ seg) = kvPath ++ seg := by
  obtain ⟨hpath, hne⟩ := path_of_muxKey hkey
  replace hpath : cleanPath (kvPath ++ seg) = kvPath ++ key := hpath
  have hproper : Proper (escape pathByte key) := by
    apply proper_of_muxKey hkey
    rw [escapedPath_redirectURL, hpath, escape_kvPath]
  have hslash : slash ∉ key :=
    fun hmem => hproper.slash (mem_escape_of_kept hmem (by decide))
  -- it is `kv`, or a segment of the key
  have hmem := mem_splitOn_of_clean hpath hne hslash
  rw [splitOn_kvPath] at hmem
  rcases List.mem_cons.mp hmem with heq | hmem
  · exact absurd heq hne
  rcases List.mem_cons.mp hmem with rfl | hmem
  · rcases hseg with rfl | rfl
    · exact (clean_of_kv hpre hread).1
    · exact (clean_of_kv hpre hread).2
  · have hback : unescape seg = some path := by
      rcases hseg with rfl | rfl
      · exact hread
      · exact unescape_escape (by decide) path
    -- a decoded segment of the key that is the key is all of it
    obtain ⟨x, hx, hshort | heq⟩ := unescape_of_mem_splitOn hback hmem
    · obtain ⟨rest, rfl⟩ := hpre
      rw [unescape_append_of_eq_some hread] at hx
      obtain ⟨y, _, rfl⟩ := Option.map_eq_some_iff.mp hx
      rw [List.length_append] at hshort
      omega
    · rw [hpath, heq]

/-- **The keys that stay as they are.** -/
theorem forwardedKey_eq_self_iff (hne : key ≠ []) :
    forwardedKey c m key = some (some (m, key)) ↔ PlainKey key := by
  refine ⟨fun h => ?_, fun h => forwardedKey_of_plain h hne⟩
  obtain ⟨front, path, seg, u, hpre, hinert, hread, hseg, hesc, hkey | ⟨query, hunclean, hkey⟩⟩ :=
    exists_of_forwardedKey h
  · exact plain_of_handler hpre hinert hread hseg hesc hkey
  · rw [hesc] at hunclean hkey
    exact absurd (clean_of_redirect hpre hread hseg hkey) hunclean

/-- **Forwarding preserves the request** exactly if its key has no character with a meaning in URLs:
then the leader's mux handles the same method with the same key and the same body. -/
theorem forward_preserves {body : Bytes} (hhost : PlainHost host)
    (h : handled r = some (m, key, body)) :
    (∃ r', forwardToLeader c host r = some (host, some r') ∧ handled r' = some (m, key, body)) ↔
      PlainKey key := by
  unfold handled at h
  obtain ⟨key', hmux, heq⟩ := Option.map_eq_some_iff.mp h
  simp only [Prod.mk.injEq] at heq
  obtain ⟨rfl, rfl, rfl⟩ := heq
  have hsent := forwardToLeader_eq (c := c) hhost hmux
  have hsame : r.passedOn r.method = r.content := content_content r r.url
  rw [← forwardedKey_eq_self_iff (c := c) (m := r.method) (path_of_muxKey hmux).2]
  -- the request that arrived has the key that forwarding makes
  constructor
  · rintro ⟨r', hr', hhandled⟩
    rw [hr', Option.map_some, Option.bind_some, hhandled] at hsent
    obtain ⟨k, hk, hpair⟩ := Option.map_eq_some_iff.mp hsent.symm
    obtain ⟨⟨m', key⟩, rfl, htriple⟩ := Option.map_eq_some_iff.mp (Prod.mk.inj hpair).2
    obtain ⟨rfl, hrest⟩ := Prod.mk.inj htriple
    obtain ⟨rfl, _⟩ := Prod.mk.inj hrest
    exact hk
  · intro hkey
    rw [hkey, Option.map_some, Option.map_some, hsame] at hsent
    obtain ⟨⟨host', r'⟩, hr', heq⟩ := Option.map_eq_some_iff.mp hsent
    obtain ⟨rfl, hhandled⟩ := Prod.mk.inj heq
    obtain ⟨r', rfl, hhandled⟩ := Option.bind_eq_some_iff.mp hhandled
    exact ⟨r', hr', hhandled⟩

/-! `GET /kv/a%3Fb` at a follower asks for the key `a?b`. It is forwarded as `http://h1/kv/a?b`,
which is a request for `a`. -/

def questioning : Request where
  method := .get
  url := ⟨kvPath ++ [0x61, 0x3F, 0x62], kvPath ++ [0x61, 0x25, 0x33, 0x46, 0x62], [], by decide⟩
  body := []

theorem plainHost_h1 : PlainHost [0x68, 0x31] := ⟨by decide, by decide +kernel, by decide +kernel⟩

/-- **A key may change on the way**, even if the leader's address is plain. -/
theorem misrouted_key : ∃ host r m key body, PlainHost host ∧ handled r = some (m, key, body) ∧
    ∀ c, ¬ ∃ r', forwardToLeader c host r = some (host, some r') ∧
      handled r' = some (m, key, body) := by
  refine ⟨[0x68, 0x31], questioning, .get, [0x61, 0x3F, 0x62], [], plainHost_h1,
    by decide +kernel, ?_⟩
  rintro c ⟨r', hr', hhandled⟩
  have hkey : (forwardToLeader c [0x68, 0x31] questioning).map (fun p => p.2.bind handled) =
      some (some (.get, [0x61], [])) := by cases c <;> decide +kernel
  rw [hr', Option.map_some, Option.bind_some, hhandled] at hkey
  revert hkey
  decide

/-! `PUT /kv/a%20b` with a plain key: the space is encoded again on the way. -/

def spacing : Request where
  method := .put
  url := ⟨kvPath ++ [0x61, 0x20, 0x62], kvPath ++ [0x61, 0x25, 0x32, 0x30, 0x62], [], by decide⟩
  body := [0x76]

theorem forward_preserves_sample : handled spacing = some (.put, [0x61, 0x20, 0x62], [0x76]) ∧
    ∃ r', forwardToLeader .temporaryRedirect [0x68, 0x31] spacing = some ([0x68, 0x31], some r') ∧
      handled r' = some (.put, [0x61, 0x20, 0x62], [0x76]) := by
  have hhandled : handled spacing = some (.put, [0x61, 0x20, 0x62], [0x76]) := by decide +kernel
  exact ⟨hhandled, (forward_preserves plainHost_h1 hhandled).mpr
    ⟨by decide +kernel, by decide, by decide⟩⟩

end Http
