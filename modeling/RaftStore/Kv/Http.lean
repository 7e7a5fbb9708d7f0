import RaftStore.Lib.Segments
import RaftStore.Raft.Types

/-!
# HTTP requests

The `GET /kv/{key}` and `PUT /kv/{key}` handlers of `cmd/main.go` as far as they read and rebuild
requests: the routes of `httpMux`, the body reader, and the request that `forwardToLeader` sends.

Of `net/url` and `net/http` this uses:

* a URL string is cut at the first `#` and then at the first `?`. It must have no control characters
  in front of the `#`, and no broken percent-encoding in its path and behind the `#`;
* a URL that was parsed is sent with its path as it was written if that is a valid encoding, and
  with the encoding of the decoded path otherwise. A blank in its query breaks the request line;
* a mux redirects a path that is not clean, and matches a clean one segment by segment;
* a client follows a redirect.
-/

namespace Http

open Raft (Bytes)
open Percent Segments

/-! ## URLs -/

/-- `/kv/` -/
def kvPath : Bytes := [0x2F, 0x6B, 0x76, 0x2F]

/-- `http://` -/
def scheme : Bytes := [0x68, 0x74, 0x74, 0x70, 0x3A, 0x2F, 0x2F]

/-- The bytes that the encoding of a path leaves alone: letters, digits and `-_.~$&+,/:;=@`. -/
def pathByte (b : UInt8) : Bool :=
  (0x30 ≤ b && b ≤ 0x39) || (0x41 ≤ b && b ≤ 0x5A) || (0x61 ≤ b && b ≤ 0x7A) ||
    b ∈ [0x2D, 0x5F, 0x2E, 0x7E, 0x24, 0x26, 0x2B, 0x2C, 0x2F, 0x3A, 0x3B, 0x3D, 0x40]

/-- The bytes of a valid encoding of a path: also `!'()*[]%`. -/
def encodedByte (b : UInt8) : Bool :=
  pathByte b || b ∈ [0x21, 0x27, 0x28, 0x29, 0x2A, 0x5B, 0x5D, 0x25]

/-- `URL.Path`, the text it was parsed from, and `URL.RawQuery`. -/
structure URL where
  path : Bytes
  raw : Bytes
  query : Bytes
  parsed : unescape raw = some path
  deriving DecidableEq

def parsePath (raw query : Bytes) : Option URL :=
  match h : unescape raw with
  | some path => some ⟨path, raw, query, h⟩
  | none => none

/-- `URL.EscapedPath`. -/
def URL.escapedPath (u : URL) : Bytes :=
  if u.raw.all encodedByte then u.raw else escape pathByte u.path

def isControl (b : UInt8) : Bool := b < 0x20 || b == 0x7F

/-- `strings.Cut` for one byte: what stands before the first `c`, and what stands behind it. -/
def cut (c : UInt8) (s : Bytes) : Bytes × Bytes :=
  (s.takeWhile (· != c), (s.dropWhile (· != c)).drop 1)

/-- What `url.Parse` reads of a URL string besides the fragment: all before the query, and the
query. -/
def hierarchical (s : Bytes) : Option (Bytes × Bytes) :=
  let (s, fragment) := cut 0x23 s
  if s.any isControl = true ∨ unescape fragment = none then none else some (cut 0x3F s)

/-! ## Routes -/

inductive Method
  | get
  | put
  deriving DecidableEq

structure Request where
  method : Method
  url : URL
  body : Bytes
  deriving DecidableEq

/-- What a mux does with a request: it runs the handler of `/kv/{key}`, redirects the client to
another path, or does something else. -/
inductive Route
  | handler (key : Bytes)
  | redirect (path : Bytes)
  | other
  deriving DecidableEq

/-- A segment of an escaped path, decoded. -/
def pathUnescape (seg : Bytes) : Bytes := (unescape seg).getD seg

def kvSegment : Bytes := [0x6B, 0x76]

/-- The routing of `ServeMux`. The wildcard matches neither the empty segment behind a slash at the
end nor, by the way it recognises that one, a segment that decodes to a slash. -/
def muxRoute (u : URL) : Route :=
  let path := u.escapedPath
  if cleanPath path ≠ path then .redirect (cleanPath path)
  else
    match path.splitOn slash with
    | [_, first, seg] =>
      if pathUnescape first = kvSegment ∧ seg ≠ [] ∧ pathUnescape seg ≠ [slash] then
        .handler (pathUnescape seg)
      else .other
    | _ => .other

/-- `r.PathValue("key")` where the mux runs the handler of `/kv/{key}`. -/
def muxKey (u : URL) : Option Bytes :=
  match muxRoute u with
  | .handler key => some key
  | _ => none

/-- The limit of the body reader, `1<<20`. -/
def maxBody : Nat := 2 ^ 20

/-- `io.ReadAll(io.LimitReader(r.Body, 1<<20))`. -/
def readBody (body : Bytes) : Bytes := body.take maxBody

/-- The body as the handler reads it; the handler of `GET` does not. -/
def Request.content (r : Request) : Bytes :=
  match r.method with
  | .get => []
  | .put => readBody r.body

/-- What the handlers of `httpMux` see of a request: the method, the key and the body. -/
def handled (r : Request) : Option (Method × Bytes × Bytes) :=
  (muxKey r.url).map (fun key => (r.method, key, r.content))

/-! ## Clients -/

/-- The status with which a mux redirects: 301 before Go 1.26, 307 since. -/
inductive Redirect
  | movedPermanently
  | temporaryRedirect
  deriving DecidableEq

/-- The `Location` of a redirect. The path that the mux has cleaned is an encoded one, and is
encoded once more. -/
def redirectURL (path query : Bytes) : URL :=
  ⟨path, escape pathByte path, query, unescape_escape (by decide) path⟩

/-- The request with which a client follows a redirect. After a 301 it is a `GET`. -/
def Request.redirected (c : Redirect) (r : Request) (path : Bytes) : Request :=
  let u := redirectURL path r.url.query
  match c with
  | .movedPermanently => { method := .get, url := u, body := [] }
  | .temporaryRedirect => { r with url := u }

/-- A request as the server reads it. A request line with a third blank is malformed. -/
def Request.received (r : Request) : Option Request :=
  if 0x20 ∈ r.url.query then none
  else (parsePath r.url.escapedPath r.url.query).map (fun u => { r with url := u })

/-- The most requests that `http.Client` makes for one. -/
def maxRequests : Nat := 10

/-- `Client.Do`: the request that the server does not redirect any more, as it reads it. `none` if
it cannot read it. -/
def clientDo (c : Redirect) : Nat → Request → Option Request
  | 0, _ => none
  | k + 1, r =>
    r.received.bind (fun r =>
      match muxRoute r.url with
      | .redirect path => clientDo c k (r.redirected c path)
      | _ => some r)

/-! ## Forwarding -/

/-- The host and the URL that `http.NewRequest` makes of a string. -/
def newRequest (s : Bytes) : Option (Bytes × URL) :=
  (hierarchical s).bind (fun s =>
    if scheme.isPrefixOf s.1 then
      let rest := s.1.drop scheme.length
      (parsePath (rest.dropWhile (· != slash)) s.2).map
        (fun u => (rest.takeWhile (· != slash), u))
    else none)

/-- The host to which `forwardToLeader` sends a request, and the request that the server there acts
on at last, if any. -/
def forwardToLeader (c : Redirect) (leaderHTTP : Bytes) (r : Request) :
    Option (Bytes × Option Request) :=
  (newRequest (scheme ++ leaderHTTP ++ r.url.path)).map (fun p =>
    (p.1, clientDo c maxRequests { method := r.method, url := p.2, body := r.content }))

/-- What the leader's handlers see of a forwarded request for a key: `none` if no request is sent,
`some none` if no handler of `/kv/{key}` runs. -/
def forwardedKey (c : Redirect) (m : Method) (key : Bytes) : Option (Option (Method × Bytes)) :=
  ((hierarchical (kvPath ++ key)).bind (fun p => parsePath p.1 p.2)).map (fun u =>
    (clientDo c maxRequests { method := m, url := u, body := [] }).bind (fun r =>
      (muxKey r.url).map (fun key => (r.method, key))))

end Http
