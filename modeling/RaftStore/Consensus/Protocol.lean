import RaftStore.Consensus.Chronicle
import Mathlib.Logic.Function.Basic

/-!
# The protocol: what may be added to a chronicle, and what stays true of it

`Step S strict n c c'` lists what node `n` may do: learn of a higher term, campaign, vote,
win, append as a leader, take over a log of its term's leader, acknowledge, commit.
Messages are not part of it. A step that depends on a message is stated through the facts
about the chronicle that the message carries, and these never become false.

`strict` switches on the two precautions that a careless implementation may leave out:

* a node never takes over a log that its own log already extends (`Step.adopt`);
* a leader changes the configuration only after it has committed an entry of its own
  term, and every change before (`Step.extend`). Without `strict` the configuration
  cannot change at all.

The invariant `Inv` has four parts: `Ballots` (terms, votes, elections), `Logs` (how logs
grow out of the leaders' logs), `Commits` (acknowledgements, commits and configuration
changes) and, under `strict`, `Safe`: what a later leader must hold.

The notion behind `Safe` is `BlockedBy c T i T'`: the leader of `T'` was elected without
the first `i` entries of term `T`'s leader, by voters none of whom had acknowledged them.
Once true it stays true, and as long as it is false for every `T'`, the entries survive.
-/

namespace Consensus

variable {N E : Type} {i : Nat}

/-! ## Steps -/

section Steps

variable [DecidableEq N]

/-- Update a function of a node and a term at one point. -/
def setAt {α : Type} (f : N → ℤ → α) (n : N) (T : ℤ) (v : α) : N → ℤ → α :=
  fun n' T' => if n' = n ∧ T' = T then v else f n' T'

@[simp] theorem setAt_self {α : Type} (f : N → ℤ → α) (n : N) (T : ℤ) (v : α) :
    setAt f n T v n T = v := by
  simp [setAt]

/-- A node learns of term `T`. -/
def Chronicle.bump (c : Chronicle N E) (n : N) (T : ℤ) : Chronicle N E :=
  { c with term := Function.update c.term n T }

/-- A node opens an election: it votes for itself and its log goes on record. -/
def Chronicle.campaign (c : Chronicle N E) (n : N) : Chronicle N E :=
  { c with
    term := Function.update c.term n (c.term n + 1)
    vote := setAt c.vote n (c.term n + 1) (some n)
    bid := setAt c.bid n (c.term n + 1) (some (c.log n)) }

/-- A node votes for `m` in its current term. -/
def Chronicle.cast (c : Chronicle N E) (n m : N) : Chronicle N E :=
  { c with vote := setAt c.vote n (c.term n) (some m) }

/-- A leader appends an entry to its log. -/
def Chronicle.append (c : Chronicle N E) (n : N) (e : E) : Chronicle N E :=
  { c with
    log := Function.update c.log n (c.log n ++ [e])
    reign := Function.update c.reign (c.term n) (c.log n ++ [e]) }

/-- A candidate wins its term with the votes of `Q`, and appends its first entry. -/
def Chronicle.win (c : Chronicle N E) (n : N) (Q : Finset N) (e : E) : Chronicle N E :=
  { c.append n e with won := fun T m P => c.won T m P ∨ (T = c.term n ∧ m = n ∧ P = Q) }

/-- A node takes over the log `g`. -/
def Chronicle.adopt (c : Chronicle N E) (n : N) (g : List E) : Chronicle N E :=
  { c with log := Function.update c.log n g }

/-- A node acknowledges the first `m` entries of its leader's log. -/
def Chronicle.acknowledge (c : Chronicle N E) (n : N) (m : Nat) : Chronicle N E :=
  { c with ack := fun x T k => c.ack x T k ∨ (x = n ∧ T = c.term n ∧ k = m) }

/-- A leader commits index `i`. -/
def Chronicle.seal (c : Chronicle N E) (n : N) (i : Nat) : Chronicle N E :=
  { c with
    commit := fun T k L =>
      c.commit T k L ∨ (T = c.term n ∧ k = i ∧ L = (c.reign (c.term n)).length) }

/-- One step of node `n`. -/
inductive Step (S : Scheme N E) (strict : Prop) (n : N) :
    Chronicle N E → Chronicle N E → Prop where
  | bump {c : Chronicle N E} {T : ℤ} (h : c.term n < T) :
      Step S strict n c (c.bump n T)
  | campaign {c : Chronicle N E} :
      Step S strict n c (c.campaign n)
  | vote {c : Chronicle N E} {m : N} {l : List E}
      (hbid : c.bid m (c.term n) = some l)
      (hfree : c.vote n (c.term n) = none ∨ c.vote n (c.term n) = some m)
      (hup : UpToDate S l (c.log n)) :
      Step S strict n c (c.cast n m)
  | win {c : Chronicle N E} {Q : Finset N} {e : E}
      (hbid : c.bid n (c.term n) = some (c.log n))
      (hQ : Majority Q (S.conf (c.log n)))
      (hvotes : ∀ q ∈ Q, c.vote q (c.term n) = some n)
      (hnew : ∀ Q, ¬ c.won (c.term n) n Q)
      (he : S.termOf e = c.term n) (hconf : ¬ S.isConf e) :
      Step S strict n c (c.win n Q e)
  | extend {c : Chronicle N E} {Q : Finset N} {e : E}
      (hwon : c.won (c.term n) n Q)
      (he : S.termOf e = c.term n)
      (hconf : S.isConf e → strict ∧ Overlap (S.conf (c.log n)) (S.conf (c.log n ++ [e])) ∧
        ∃ i L, c.commit (c.term n) i L ∧
          ∀ (k : Nat) (x : E), (c.log n)[k]? = some x → S.isConf x → k < i) :
      Step S strict n c (c.append n e)
  | adopt {c : Chronicle N E} {m : N} {Q : Finset N} {g : List E}
      (hwon : c.won (c.term n) m Q) (hne : m ≠ n)
      (hg : g <+: c.reign (c.term n)) (hkeep : strict → ¬ g <+: c.log n) :
      Step S strict n c (c.adopt n g)
  | ack {c : Chronicle N E} {m : Nat}
      (hm : m ≤ (c.reign (c.term n)).length)
      (hpre : (c.reign (c.term n)).take m <+: c.log n) :
      Step S strict n c (c.acknowledge n m)
  | commit {c : Chronicle N E} {Q Q' : Finset N} {i : Nat} {e : E}
      (hwon : c.won (c.term n) n Q) (hi : 0 < i)
      (he : (c.reign (c.term n))[i - 1]? = some e) (hT : S.termOf e = c.term n)
      (hQ' : Majority Q' (S.conf (c.reign (c.term n))))
      (hack : ∀ q ∈ Q', ∃ m, i ≤ m ∧ c.ack q (c.term n) m) :
      Step S strict n c (c.seal n i)

end Steps

/-! ## The invariant -/

/-- Index `i` of the leader's log of `T` holds an entry of that term. -/
def Own (S : Scheme N E) (c : Chronicle N E) (T : ℤ) (i : Nat) : Prop :=
  0 < i ∧ ∃ e, (c.reign T)[i - 1]? = some e ∧ S.termOf e = T

/-- The leader of `T'` was elected without the first `i` entries of `reign T`, by voters
who had not acknowledged them. -/
def BlockedBy (c : Chronicle N E) (T : ℤ) (i : Nat) (T' : ℤ) : Prop :=
  T < T' ∧ ∃ n Q l, c.won T' n Q ∧ c.bid n T' = some l ∧ ¬ (c.reign T).take i <+: l ∧
    ∀ q ∈ Q, ∀ m, i ≤ m → ¬ c.ack q T m

/-- Some leader of a term up to `X` blocks the first `i` entries of `reign T`. -/
def BlockedTo (c : Chronicle N E) (T : ℤ) (i : Nat) (X : ℤ) : Prop :=
  ∃ T', T' ≤ X ∧ BlockedBy c T i T'

/-- Terms, votes and elections. -/
structure Ballots (c : Chronicle N E) : Prop where
  term_nonneg : ∀ n, 0 ≤ c.term n
  vote_le : ∀ {n T m}, c.vote n T = some m → T ≤ c.term n
  vote_bid : ∀ {n T m}, c.vote n T = some m → ∃ l, c.bid m T = some l
  bid_le : ∀ {n T l}, c.bid n T = some l → 0 < T ∧ T ≤ c.term n
  won_vote : ∀ {T n Q q}, c.won T n Q → q ∈ Q → c.vote q T = some n
  won_unique : ∀ {T n n' Q Q'}, c.won T n Q → c.won T n' Q' → n = n' ∧ Q = Q'

/-- Logs grow out of the leaders' logs. -/
structure Logs (S : Scheme N E) (c : Chronicle N E) : Prop where
  chained_log : ∀ n, Chained S c (c.log n)
  ascending_log : ∀ n, Ascending S (c.log n)
  log_le : ∀ {n e}, e ∈ c.log n → S.termOf e ≤ c.term n
  chained_bid : ∀ {n T l}, c.bid n T = some l → Chained S c l
  ascending_bid : ∀ {n T l}, c.bid n T = some l → Ascending S l
  bid_lt : ∀ {n T l e}, c.bid n T = some l → e ∈ l → S.termOf e < T
  won_bid : ∀ {T n Q}, c.won T n Q → ∃ l own, c.bid n T = some l ∧ Majority Q (S.conf l) ∧
    c.reign T = l ++ own ∧ own ≠ [] ∧ ∀ e ∈ own, S.termOf e = T
  reign_won : ∀ {T}, c.reign T ≠ [] → ∃ n Q, c.won T n Q
  leader_log : ∀ {T n Q}, c.won T n Q → c.term n = T → c.log n = c.reign T

/-- Acknowledgements, commits, and the gate in front of a configuration change. -/
structure Commits (S : Scheme N E) (strict : Prop) (c : Chronicle N E) : Prop where
  ack_le : ∀ {n T m}, c.ack n T m → T ≤ c.term n ∧ m ≤ (c.reign T).length
  commit_spec : ∀ {T i L}, c.commit T i L → Own S c T i ∧ i ≤ L ∧ L ≤ (c.reign T).length ∧
    ∃ Q, Majority Q (S.conf ((c.reign T).take L)) ∧ ∀ q ∈ Q, ∃ m, i ≤ m ∧ c.ack q T m
  conf_gate : ∀ {T} {k : Nat} {e}, (c.reign T)[k]? = some e → S.isConf e →
    strict ∧ Overlap (S.conf ((c.reign T).take k)) (S.conf ((c.reign T).take (k + 1))) ∧
      (S.termOf e = T → ∃ i L, c.commit T i L ∧ L ≤ k ∧
        ∀ (k' : Nat) (x : E), k' < k → (c.reign T)[k']? = some x → S.isConf x → k' < i)

/-- What survives. `hold`: a node still holds what it acknowledged in its current term.
`keep`: it holds entries acknowledged in an earlier term unless they are blocked. `heed`: a
vote went to a log at least as up to date as what the voter had acknowledged. `inherit`:
a later leader was elected with them. `sealed`: committed entries are never blocked. -/
structure Safe (S : Scheme N E) (c : Chronicle N E) : Prop where
  hold : ∀ {n m}, c.ack n (c.term n) m → (c.reign (c.term n)).take m <+: c.log n
  keep : ∀ {n T m i}, c.ack n T m → Own S c T i → i ≤ m → ¬ BlockedTo c T i (c.term n) →
    (c.reign T).take i <+: c.log n
  heed : ∀ {n T' m l T k i}, c.vote n T' = some m → c.bid m T' = some l → T < T' →
    c.ack n T k → Own S c T i → i ≤ k → ¬ BlockedTo c T i T' →
    T < lastTerm S l ∨ (T = lastTerm S l ∧ i ≤ l.length)
  inherit : ∀ {T' n Q l T i}, c.won T' n Q → c.bid n T' = some l → T < T' → Own S c T i →
    ¬ BlockedTo c T i T' → (c.reign T).take i <+: l
  sealed : ∀ {T i L}, c.commit T i L → ∀ T', ¬ BlockedBy c T i T'

/-- The invariant of the protocol. -/
structure Inv (S : Scheme N E) (strict : Prop) (c : Chronicle N E) : Prop where
  ballots : Ballots c
  logs : Logs S c
  commits : Commits S strict c
  safe : strict → Safe S c

theorem Inv.init (S : Scheme N E) (strict : Prop) : Inv S strict Chronicle.init where
  ballots :=
    { term_nonneg := fun _ => le_refl _
      vote_le := by intro n T m h; cases h
      vote_bid := by intro n T m h; cases h
      bid_le := by intro n T l h; cases h
      won_vote := by intro T n Q q h; cases h
      won_unique := by intro T n n' Q Q' h; cases h }
  logs :=
    { chained_log := fun _ => Chained.nil
      ascending_log := fun _ => Ascending.nil
      log_le := by intro n e h; cases h
      chained_bid := by intro n T l h; cases h
      ascending_bid := by intro n T l h; cases h
      bid_lt := by intro n T l e h; cases h
      won_bid := by intro T n Q h; cases h
      reign_won := by intro T h; exact absurd rfl h
      leader_log := by intro T n Q h; cases h }
  commits :=
    { ack_le := by intro n T m h; cases h
      commit_spec := by intro T i L h; cases h
      conf_gate := by intro T k e h; cases h }
  safe := fun _ =>
    { hold := by intro n m h; cases h
      keep := by intro n T m i h; cases h
      heed := by intro n T' m l T k i h; cases h
      inherit := by intro T' n Q l T i h; cases h
      sealed := by intro T i L h; cases h }

/-! ## Consequences of the invariant -/

section Consequences

variable {S : Scheme N E} {strict : Prop} {c c' : Chronicle N E}

theorem Inv.won_le (hI : Inv S strict c) {T : ℤ} {n : N} {Q : Finset N} (h : c.won T n Q) :
    0 < T ∧ T ≤ c.term n := by
  obtain ⟨l, _, hbid, _⟩ := hI.logs.won_bid h
  exact hI.ballots.bid_le hbid

/-- A leader's log is chained: what it was elected with is, and what it appended sits in
its own log. -/
theorem Inv.chained_reign (hI : Inv S strict c) (T : ℤ) : Chained S c (c.reign T) := by
  intro i e he
  have hne : c.reign T ≠ [] := by
    intro h
    rw [h] at he
    simp at he
  obtain ⟨n, Q, hwon⟩ := hI.logs.reign_won hne
  obtain ⟨l, own, hbid, _, hreign, _, hown⟩ := hI.logs.won_bid hwon
  rcases Nat.lt_or_ge i l.length with hi | hi
  · rw [hreign, List.getElem?_append_left hi] at he
    rw [hreign, List.take_append_of_le_length (by omega)]
    exact hI.logs.chained_bid hbid i e he
  · have hmem : e ∈ own := by
      rw [hreign, List.getElem?_append_right hi] at he
      exact List.mem_of_getElem? he
    rw [hown e hmem]
    exact List.take_prefix _ _

theorem Inv.reign_le (hI : Inv S strict c) {T : ℤ} {e : E} (he : e ∈ c.reign T) :
    S.termOf e ≤ T := by
  obtain ⟨n, Q, hwon⟩ := hI.logs.reign_won (List.ne_nil_of_mem he)
  obtain ⟨l, own, hbid, _, hreign, _, hown⟩ := hI.logs.won_bid hwon
  rw [hreign, List.mem_append] at he
  rcases he with h | h
  · exact (hI.logs.bid_lt hbid h).le
  · exact (hown e h).le

theorem Inv.ascending_reign (hI : Inv S strict c) (T : ℤ) : Ascending S (c.reign T) := by
  intro i j e e' hij he he'
  obtain ⟨n, Q, hwon⟩ := hI.logs.reign_won (List.ne_nil_of_mem (List.mem_of_getElem? he))
  obtain ⟨l, own, hbid, _, hreign, _, hown⟩ := hI.logs.won_bid hwon
  rcases Nat.lt_or_ge j l.length with hj | hj
  · rw [hreign, List.getElem?_append_left (by omega)] at he he'
    exact hI.logs.ascending_bid hbid i j e e' hij he he'
  · have hmem : e' ∈ own := by
      rw [hreign, List.getElem?_append_right hj] at he'
      exact List.mem_of_getElem? he'
    rw [hown e' hmem]
    exact hI.reign_le (List.mem_of_getElem? he)

theorem Own.le_length {T : ℤ} (h : Own S c T i) : i ≤ (c.reign T).length := by
  obtain ⟨_, e, he, _⟩ := h
  have := (List.getElem?_eq_some_iff.mp he).1
  omega

theorem Own.length_take {T : ℤ} (h : Own S c T i) :
    ((c.reign T).take i).length = i := by
  rw [List.length_take, Nat.min_eq_left h.le_length]

theorem Own.mono {T : ℤ} (h : Own S c T i) (hx : Extends c c') : Own S c' T i := by
  obtain ⟨hi, e, he, hT⟩ := h
  exact ⟨hi, e, getElem?_of_isPrefix (hx.reign_mono T) he, hT⟩

/-- The entries of an owned index no longer change. -/
theorem Own.take_eq {T : ℤ} (h : Own S c T i) (hx : Extends c c') :
    (c'.reign T).take i = (c.reign T).take i :=
  take_eq_of_isPrefix (hx.reign_mono T) h.le_length

/-- A log that starts with the first `i` entries of `reign T` holds the owned entry. -/
theorem Own.getElem?_of_isPrefix {T : ℤ} {l : List E} (h : Own S c T i)
    (hp : (c.reign T).take i <+: l) : ∃ e, l[i - 1]? = some e ∧ S.termOf e = T := by
  obtain ⟨hi, e, he, hT⟩ := h
  exact ⟨e, Consensus.getElem?_of_isPrefix hp (getElem?_take_succ he (by omega)), hT⟩

/-- An owned index belongs to a term that has a leader, so the term is positive. -/
theorem Own.pos {T : ℤ} (h : Own S c T i) (hI : Inv S strict c) : 0 < T := by
  obtain ⟨_, e, he, _⟩ := h
  obtain ⟨n, Q, hwon⟩ := hI.logs.reign_won (List.ne_nil_of_mem (List.mem_of_getElem? he))
  exact (hI.won_le hwon).1

/-- **Blocking is stable.** The voters of `T'` have left term `T`, so they acknowledge
nothing more in it, and the log the leader of `T'` was elected with is on record. -/
theorem BlockedBy.mono {T T' : ℤ} (h : BlockedBy c T i T') (hI : Inv S strict c)
    (hx : Extends c c') (hown : Own S c T i) : BlockedBy c' T i T' := by
  obtain ⟨hlt, n, Q, l, hwon, hbid, hnot, hack⟩ := h
  refine ⟨hlt, n, Q, l, hx.won_mono hwon, hx.bid_mono hbid, ?_, ?_⟩
  · rw [hown.take_eq hx]
    exact hnot
  · intro q hq m hm hnew
    rcases hx.ack_new hnew with hold | hle
    · exact hack q hq m hm hold
    · have := hI.ballots.vote_le (hI.ballots.won_vote hwon hq)
      omega

theorem BlockedTo.mono {T X : ℤ} (h : BlockedTo c T i X) (hI : Inv S strict c)
    (hx : Extends c c') (hown : Own S c T i) : BlockedTo c' T i X := by
  obtain ⟨T', hle, hb⟩ := h
  exact ⟨T', hle, hb.mono hI hx hown⟩

theorem BlockedTo.le {T X Y : ℤ} (h : BlockedTo c T i X) (hXY : X ≤ Y) :
    BlockedTo c T i Y := by
  obtain ⟨T', hle, hb⟩ := h
  exact ⟨T', hle.trans hXY, hb⟩

theorem Safe.not_blockedTo (hs : Safe S c) {T X : ℤ} {i L : Nat} (h : c.commit T i L) :
    ¬ BlockedTo c T i X := by
  rintro ⟨T', _, hb⟩
  exact hs.sealed h T' hb

/-- **What an up-to-date log carries.** A chained log whose last entry is at least as late
as an owned index that nobody blocks starts with the entries up to that index. -/
theorem Inv.carries (hI : Inv S strict c) (hs : Safe S c) {l : List E} {T : ℤ}
    (hch : Chained S c l) (hown : Own S c T i)
    (hlast : T < lastTerm S l ∨ (T = lastTerm S l ∧ i ≤ l.length))
    (hfree : ¬ BlockedTo c T i (lastTerm S l)) : (c.reign T).take i <+: l := by
  have hTpos := hown.pos hI
  have hne : l ≠ [] := by
    rintro rfl
    have h0 : lastTerm S ([] : List E) = 0 := rfl
    rw [h0] at hlast
    omega
  have hlen : 0 < l.length := List.length_pos_of_ne_nil hne
  obtain ⟨x, hx⟩ : ∃ x, l[l.length - 1]? = some x :=
    ⟨_, List.getElem?_eq_getElem (by omega)⟩
  have hxt : lastTerm S l = S.termOf x := lastTerm_of_getElem? hx
  -- the whole log is a prefix of the log of its last term's leader
  have hpre : l <+: c.reign (S.termOf x) := by
    have h := hch (l.length - 1) x hx
    rwa [show l.length - 1 + 1 = l.length from by omega, List.take_length] at h
  rcases hlast with hlt | ⟨heq, hi⟩
  · rw [hxt] at hlt hfree
    have hxmem : x ∈ c.reign (S.termOf x) := hpre.subset (List.mem_of_getElem? hx)
    obtain ⟨m, Q, hwon⟩ := hI.logs.reign_won (List.ne_nil_of_mem hxmem)
    obtain ⟨lb, own, hbid, _, hreign, _, _⟩ := hI.logs.won_bid hwon
    have hinh : (c.reign T).take i <+: lb := hs.inherit hwon hbid hlt hown hfree
    have hinh' : (c.reign T).take i <+: c.reign (S.termOf x) := by
      rw [hreign]
      exact hinh.trans (List.prefix_append _ _)
    rcases Nat.lt_or_ge l.length i with hli | hli
    · -- otherwise the last entry of `l` would be an entry of `reign T` of a later term
      have hback : l <+: (c.reign T).take i :=
        List.prefix_of_prefix_length_le hpre hinh' (by rw [hown.length_take]; omega)
      have hmem : x ∈ c.reign T :=
        List.mem_of_mem_take (hback.subset (List.mem_of_getElem? hx))
      have := hI.reign_le hmem
      omega
    · exact List.prefix_of_prefix_length_le hinh' hpre (by rw [hown.length_take]; exact hli)
  · rw [heq, hxt]
    exact List.prefix_of_prefix_length_le (List.take_prefix _ _) hpre
      ((List.length_take_le _ _).trans hi)

/-- A voter that acknowledged an owned, unblocked index passes it on to whoever it votes
for. -/
theorem Inv.bid_inherits (hI : Inv S strict c) (hs : Safe S c) {q m : N} {X T : ℤ} {l : List E}
    {i k : Nat} (hvote : c.vote q X = some m) (hbid : c.bid m X = some l) (hlt : T < X)
    (hack : c.ack q T k) (hown : Own S c T i) (hik : i ≤ k) (hfree : ¬ BlockedTo c T i X) :
    (c.reign T).take i <+: l := by
  have hlast := hs.heed hvote hbid hlt hack hown hik hfree
  refine hI.carries hs (hI.logs.chained_bid hbid) hown hlast ?_
  intro hb
  refine hfree (hb.le ?_)
  rcases l.eq_nil_or_concat with rfl | ⟨l', x, rfl⟩
  · exact (hI.ballots.bid_le hbid).1.le
  · have hxt : lastTerm S (l' ++ [x]) = S.termOf x := by simp [lastTerm]
    rw [List.concat_eq_append] at *
    rw [hxt]
    exact (hI.logs.bid_lt hbid (by simp)).le

end Consequences

end Consensus
