/-
# Punishing and banning peers

`NetworkManagerPrivate::punishNode`, `cronHourly` and `NetworkManagerServer::acceptConnection`
(`libs/networkmanager/NetworkManager.cpp`), against a ledger that only says what a ban is: a score of
1000 bans an address for 24 hours, and a peer is served exactly when no ban of its address runs.

The manager keeps expired bans until the next `cronHourly`, and the scan of `acceptConnection` stops
at the first entry for an address, so a peer whose ban has just run out is neither refused nor served.
A score is a `short`, and a large punishment makes it negative.  These and ids that run out are the
only differences (`outcomes_iff_meets`).
-/
import Mathlib.Algebra.Order.Ring.Int
import Mathlib.Logic.Function.Basic
import Mathlib.Tactic.Common

namespace PeerBans

variable {Address : Type}

/-- `NetworkManagerConnection`: the peer, and `m_punishment`. -/
structure Connection (Address : Type) where
  address : Address
  punishment : ℤ

/-- `BannedNode`. -/
structure BannedNode (Address : Type) where
  address : Address
  banTimeout : ℕ

/-- `NetworkManagerPrivate`. -/
structure Manager (Address : Type) where
  connections : ℕ → Option (Connection Address)
  lastConnectionId : ℕ
  banned : List (BannedNode Address)

/-- What is seen of a call: nothing, a ban, a socket that is closed, a new connection, or a socket
that is left open without one. -/
inductive Outcome (Address : Type) where
  | nothing
  | banned (address : Address)
  | closed
  | served (conId : ℕ)
  | leftOpen
  deriving DecidableEq

/-- A call; a punishment is an `int` that is not negative. -/
inductive Op (Address : Type) where
  | punishNode (connectionId : ℕ) (punishScore : Fin (2 ^ 31))
  | cronHourly
  | acceptConnection (peerAddress : Address)

/-- 24 hours, in seconds. -/
def banTime : ℕ := 24 * 60 * 60

/-- The conversion to `short`. -/
def toShort (x : ℤ) : ℤ := x.bmod (2 ^ 16)

/-! ## The network manager -/

namespace Manager

/-- `punishNode`; `none` if the sum is no `int`.  The `shutdown` of a banned connection, which goes
through the iterator that was just erased, is left out. -/
def punishNode (s : Manager Address) (now connectionId punishScore : ℕ) :
    Option (Manager Address × Outcome Address) :=
  match s.connections connectionId with
  | none => some (s, .nothing)
  | some con =>
      if 2 ^ 31 ≤ con.punishment + punishScore then none
      else
        let punishment := toShort (con.punishment + punishScore)
        if 1000 ≤ punishment then
          some ({ s with
            banned := s.banned ++ [⟨con.address, now + banTime⟩]
            connections := Function.update s.connections connectionId none }, .banned con.address)
        else
          some ({ s with
            connections := Function.update s.connections connectionId
              (some ⟨con.address, punishment⟩) }, .nothing)

/-- `cronHourly`. -/
def cronHourly (s : Manager Address) (now : ℕ) : Manager Address :=
  { s with
    banned := s.banned.filter fun bannedNode => ¬ bannedNode.banTimeout < now
    connections := fun id =>
      (s.connections id).map fun con => ⟨con.address, max 0 (con.punishment - 100)⟩ }

variable [DecidableEq Address]

/-- `acceptConnection`, for a socket that was accepted; `none` if the id is no `int`. -/
def acceptConnection (s : Manager Address) (now : ℕ) (peerAddress : Address) :
    Option (Manager Address × Outcome Address) :=
  match s.banned.find? fun bn => bn.address = peerAddress with
  | some bn => if now < bn.banTimeout then some (s, .closed) else some (s, .leftOpen)
  | none =>
      if 2 ^ 31 ≤ s.lastConnectionId + 1 then none
      else
        some ({ s with
          lastConnectionId := s.lastConnectionId + 1
          connections := Function.update s.connections (s.lastConnectionId + 1)
            (some ⟨peerAddress, 0⟩) }, .served (s.lastConnectionId + 1))

def step (s : Manager Address) (now : ℕ) : Op Address → Option (Manager Address × Outcome Address)
  | .punishNode connectionId punishScore => s.punishNode now connectionId punishScore
  | .cronHourly => some (s.cronHourly now, .nothing)
  | .acceptConnection peerAddress => s.acceptConnection now peerAddress

/-- What is seen of a run; each call comes some seconds after the one before. -/
def outcomes : Manager Address → ℕ → List (ℕ × Op Address) → Option (List (Outcome Address))
  | _, _, [] => some []
  | s, now, (gap, op) :: calls =>
      match s.step (now + gap) op with
      | none => none
      | some (s', outcome) => (outcomes s' (now + gap) calls).map (outcome :: ·)

end Manager

/-! ## The ledger -/

/-- The scores of the peers that are connected, the number of connections so far, and every ban that
was ever imposed. -/
structure Ledger (Address : Type) where
  connections : ℕ → Option (Address × ℕ)
  given : ℕ
  bans : List (BannedNode Address)

namespace Ledger

def punishNode (l : Ledger Address) (now connectionId punishScore : ℕ) :
    Ledger Address × Outcome Address :=
  match l.connections connectionId with
  | none => (l, .nothing)
  | some (address, score) =>
      if 1000 ≤ score + punishScore then
        ({ l with
          bans := l.bans ++ [⟨address, now + banTime⟩]
          connections := Function.update l.connections connectionId none }, .banned address)
      else
        ({ l with
          connections := Function.update l.connections connectionId
            (some (address, score + punishScore)) }, .nothing)

def cronHourly (l : Ledger Address) : Ledger Address :=
  { l with connections := fun id => (l.connections id).map fun con => (con.1, con.2 - 100) }

variable [DecidableEq Address]

def acceptConnection (l : Ledger Address) (now : ℕ) (peerAddress : Address) :
    Ledger Address × Outcome Address :=
  if ∃ ban ∈ l.bans, ban.address = peerAddress ∧ now < ban.banTimeout then (l, .closed)
  else
    ({ l with
      given := l.given + 1
      connections := Function.update l.connections (l.given + 1) (some (peerAddress, 0)) },
      .served (l.given + 1))

def step (l : Ledger Address) (now : ℕ) : Op Address → Ledger Address × Outcome Address
  | .punishNode connectionId punishScore => l.punishNode now connectionId punishScore
  | .cronHourly => (l.cronHourly, .nothing)
  | .acceptConnection peerAddress => l.acceptConnection now peerAddress

def outcomes : Ledger Address → ℕ → List (ℕ × Op Address) → List (Outcome Address)
  | _, _, [] => []
  | l, now, (gap, op) :: calls =>
      (l.step (now + gap) op).2 :: outcomes (l.step (now + gap) op).1 (now + gap) calls

end Ledger

namespace Manager

/-- Nobody has been banned yet, and nobody will be without a punishment. -/
structure Fresh (s : Manager Address) : Prop where
  banned : s.banned = []
  punishment : ∀ id con, s.connections id = some con → 0 ≤ con.punishment ∧ con.punishment < 1000

/-- The ledger of a fresh manager. -/
def ledger (s : Manager Address) : Ledger Address where
  connections id := (s.connections id).map fun con => (con.address, con.punishment.toNat)
  given := s.lastConnectionId
  bans := []

variable [DecidableEq Address]

/-- The step does what it should: a score that reaches 1000 still does so as a `short`, the first
entry for an address has not expired, and there is an id left for a connection. -/
def StepOk (s : Manager Address) (now : ℕ) : Op Address → Prop
  | .punishNode connectionId punishScore => ∀ con, s.connections connectionId = some con →
      con.punishment + punishScore < 1000 ∨
        (con.punishment + punishScore < 2 ^ 31 ∧
          1000 ≤ (con.punishment + punishScore) % 2 ^ 16 ∧
          (con.punishment + punishScore) % 2 ^ 16 < 2 ^ 15)
  | .cronHourly => True
  | .acceptConnection peerAddress =>
      match s.banned.find? fun bn => bn.address = peerAddress with
      | some bn => now < bn.banTimeout
      | none => s.lastConnectionId + 1 < 2 ^ 31

/-- Every step of the run does. -/
def Meets : Manager Address → ℕ → List (ℕ × Op Address) → Prop
  | _, _, [] => True
  | s, now, (gap, op) :: calls => s.StepOk (now + gap) op ∧
      ∀ s' outcome, s.step (now + gap) op = some (s', outcome) → Meets s' (now + gap) calls

end Manager

/-! ## The manager follows the ledger -/

/-- The same scores; only bans are listed, and every one that still runs is. -/
structure Agrees (now : ℕ) (s : Manager Address) (l : Ledger Address) : Prop where
  connections : ∀ id, s.connections id =
    (l.connections id).map fun con => ⟨con.1, (con.2 : ℤ)⟩
  score_lt : ∀ id con, l.connections id = some con → con.2 < 1000
  given : s.lastConnectionId = l.given
  listed : ∀ bn ∈ s.banned, bn ∈ l.bans
  running : ∀ bn ∈ l.bans, now < bn.banTimeout → bn ∈ s.banned

theorem agrees_ledger {s : Manager Address} (hs : s.Fresh) (now : ℕ) : Agrees now s s.ledger where
  connections := by
    intro id
    rw [Manager.ledger, Option.map_map]
    cases hcon : s.connections id with
    | none => rfl
    | some con =>
      have hpos := (hs.punishment id con hcon).1
      change some con = some ⟨con.address, (con.punishment.toNat : ℤ)⟩
      rw [Int.toNat_of_nonneg hpos]
  score_lt := by
    intro id con hcon
    obtain ⟨con', hcon', rfl⟩ := Option.map_eq_some_iff.mp hcon
    have hlt := hs.punishment id con' hcon'
    change con'.punishment.toNat < 1000
    omega
  given := rfl
  listed := by
    rw [hs.banned]
    nofun
  running := nofun

section

variable {now : ℕ} {s : Manager Address} {l : Ledger Address}

/-- Time passes. -/
theorem Agrees.later (h : Agrees now s l) (gap : ℕ) : Agrees (now + gap) s l where
  connections := h.connections
  score_lt := h.score_lt
  given := h.given
  listed := h.listed
  running := fun bn hbn hlt => h.running bn hbn (by omega)

/-- The score as a `short` still shows that it is 1000. -/
theorem toShort_iff (x : ℤ) : 1000 ≤ toShort x ↔ 1000 ≤ x % 2 ^ 16 ∧ x % 2 ^ 16 < 2 ^ 15 := by
  rw [toShort, Int.bmod_def]
  split
  all_goals omega

theorem toShort_eq {x : ℤ} (h0 : 0 ≤ x) (hx : x < 1000) : toShort x = x := by
  rw [toShort, Int.bmod_def, if_pos]
  all_goals omega

/-- What the manager knows of a connection, the ledger knows too. -/
theorem Agrees.exists_score (h : Agrees now s l) {id : ℕ} {con : Connection Address}
    (hcon : s.connections id = some con) : ∃ score, l.connections id = some (con.address, score) ∧
      con.punishment = score ∧ score < 1000 := by
  rw [h.connections id] at hcon
  obtain ⟨⟨address, score⟩, hscore, rfl⟩ := Option.map_eq_some_iff.mp hcon
  exact ⟨score, hscore, rfl, h.score_lt id _ hscore⟩

/-- Two maps that agree and are updated alike. -/
theorem Agrees.update (h : Agrees now s l) (id : ℕ) (con : Option (Address × ℕ)) (id' : ℕ) :
    Function.update s.connections id (con.map fun con => ⟨con.1, (con.2 : ℤ)⟩) id' =
      (Function.update l.connections id con id').map fun con => ⟨con.1, (con.2 : ℤ)⟩ := by
  by_cases hid : id' = id
  · rw [hid, Function.update_self, Function.update_self]
  · rw [Function.update_of_ne hid, Function.update_of_ne hid]
    exact h.connections id'

theorem Agrees.score_lt_update (h : Agrees now s l) {id : ℕ} {con : Option (Address × ℕ)}
    (hcon : ∀ c ∈ con, c.2 < 1000) (id' : ℕ) (c : Address × ℕ)
    (hc : Function.update l.connections id con id' = some c) : c.2 < 1000 := by
  by_cases hid : id' = id
  · rw [hid, Function.update_self] at hc
    exact hcon c hc
  · rw [Function.update_of_ne hid] at hc
    exact h.score_lt id' c hc

theorem Agrees.cronHourly (h : Agrees now s l) : Agrees now (s.cronHourly now) l.cronHourly where
  connections := by
    intro id
    change (s.connections id).map _ = Option.map _ ((l.connections id).map _)
    rw [h.connections id, Option.map_map, Option.map_map]
    congr 1
    funext con
    change Connection.mk con.1 (max 0 ((con.2 : ℤ) - 100)) = ⟨con.1, ((con.2 - 100 : ℕ) : ℤ)⟩
    congr 1
    omega
  score_lt := by
    intro id con hcon
    obtain ⟨con', hcon', rfl⟩ := Option.map_eq_some_iff.mp hcon
    exact Nat.lt_of_le_of_lt (Nat.sub_le _ _) (h.score_lt id con' hcon')
  given := h.given
  listed := fun bn hbn => h.listed bn (List.mem_filter.mp hbn).1
  running := by
    intro bn hbn hrunning
    apply List.mem_filter.mpr
    refine ⟨h.running bn hbn hrunning, decide_eq_true ?_⟩
    exact Nat.lt_asymm hrunning

variable [DecidableEq Address]

theorem Agrees.punishNode (h : Agrees now s l) {connectionId : ℕ} {punishScore : Fin (2 ^ 31)}
    (hok : s.StepOk now (.punishNode connectionId punishScore)) :
    ∃ s', s.punishNode now connectionId punishScore =
        some (s', (l.punishNode now connectionId punishScore).2) ∧
      Agrees now s' (l.punishNode now connectionId punishScore).1 := by
  rw [Manager.punishNode, Ledger.punishNode]
  cases hcon : s.connections connectionId with
  | none =>
    have hnone : l.connections connectionId = none := by
      rw [h.connections connectionId] at hcon
      exact Option.map_eq_none_iff.mp hcon
    rw [hnone]
    exact ⟨s, rfl, h⟩
  | some con =>
    obtain ⟨score, hscore, hpunishment, hlt⟩ := h.exists_score hcon
    have hok := hok con hcon
    rw [hscore]
    dsimp only
    rw [if_neg (by omega)]
    by_cases hban : 1000 ≤ score + (punishScore : ℕ)
    · -- the sum is 1000, and the `short` shows it
      have hshort : 1000 ≤ toShort (con.punishment + (punishScore : ℕ)) := by
        rw [toShort_iff]
        omega
      rw [if_pos hban, if_pos hshort]
      refine ⟨_, rfl, ?_, ?_, h.given, ?_, ?_⟩
      · exact h.update connectionId none
      · exact h.score_lt_update nofun
      · intro bn hbn
        rw [List.mem_append] at hbn ⊢
        exact hbn.imp_left (h.listed bn)
      · intro bn hbn hrunning
        rw [List.mem_append] at hbn ⊢
        exact hbn.imp_left fun hbn => h.running bn hbn hrunning
    · have hshort : toShort (con.punishment + (punishScore : ℕ)) =
          (score + (punishScore : ℕ) : ℕ) := by
        rw [toShort_eq (by omega) (by omega), hpunishment]
        push_cast
        rfl
      rw [if_neg hban, hshort, if_neg (by omega)]
      refine ⟨_, rfl, ?_, ?_, h.given, h.listed, h.running⟩
      · exact h.update connectionId (some (con.address, score + punishScore))
      · apply h.score_lt_update
        rintro _ ⟨⟩
        exact Nat.not_le.mp hban

/-- The first entry for an address, when it has not expired, is a ban that runs; and without an entry
there is none. -/
theorem Agrees.acceptConnection (h : Agrees now s l) {peerAddress : Address}
    (hok : s.StepOk now (.acceptConnection peerAddress)) :
    ∃ s', s.acceptConnection now peerAddress =
        some (s', (l.acceptConnection now peerAddress).2) ∧
      Agrees now s' (l.acceptConnection now peerAddress).1 := by
  rw [Manager.StepOk] at hok
  rw [Manager.acceptConnection, Ledger.acceptConnection]
  cases hfind : s.banned.find? fun bn => bn.address = peerAddress with
  | some bn =>
    rw [hfind] at hok
    have hfound := List.find?_some hfind
    have haddress : bn.address = peerAddress := of_decide_eq_true hfound
    have hbans := h.listed bn (List.mem_of_find?_eq_some hfind)
    dsimp only at hok ⊢
    rw [if_pos hok, if_pos ⟨bn, hbans, haddress, hok⟩]
    exact ⟨s, rfl, h⟩
  | none =>
    rw [hfind] at hok
    dsimp only at hok ⊢
    have hnone : ¬ ∃ ban ∈ l.bans, ban.address = peerAddress ∧ now < ban.banTimeout := by
      rintro ⟨ban, hban, haddress, hrunning⟩
      have hlisted := h.running ban hban hrunning
      have := List.find?_eq_none.mp hfind ban hlisted
      exact this (decide_eq_true haddress)
    rw [if_neg (by omega), if_neg hnone, h.given]
    refine ⟨_, rfl, ?_, ?_, rfl, h.listed, h.running⟩
    · exact h.update (l.given + 1) (some (peerAddress, 0))
    · apply h.score_lt_update
      rintro _ ⟨⟩
      exact Nat.zero_lt_succ _

/-- A step that does what it should. -/
theorem Agrees.step (h : Agrees now s l) {op : Op Address} (hok : s.StepOk now op) :
    ∃ s', s.step now op = some (s', (l.step now op).2) ∧ Agrees now s' (l.step now op).1 := by
  cases op with
  | punishNode connectionId punishScore => exact h.punishNode hok
  | cronHourly => exact ⟨s.cronHourly now, rfl, h.cronHourly⟩
  | acceptConnection peerAddress => exact h.acceptConnection hok

/-- Any other step is seen to differ. -/
theorem Agrees.step_ne (h : Agrees now s l) {op : Op Address} (hno : ¬ s.StepOk now op)
    (s' : Manager Address) : s.step now op ≠ some (s', (l.step now op).2) := by
  cases op with
  | punishNode connectionId punishScore =>
    obtain ⟨con, hno⟩ := not_forall.mp hno
    obtain ⟨hcon, hno⟩ := Classical.not_imp.mp hno
    obtain ⟨hlarge, hno⟩ := not_or.mp hno
    obtain ⟨score, hscore, hpunishment, -⟩ := h.exists_score hcon
    rw [Manager.step, Ledger.step, Manager.punishNode, Ledger.punishNode, hcon, hscore]
    dsimp only
    split
    · exact nofun
    · next hint =>
      have hshort : ¬ 1000 ≤ toShort (con.punishment + (punishScore : ℕ)) := by
        rw [toShort_iff]
        omega
      rw [if_neg hshort, if_pos (by omega)]
      exact nofun
  | cronHourly => exact absurd trivial hno
  | acceptConnection peerAddress =>
    rw [Manager.StepOk] at hno
    rw [Manager.step, Ledger.step, Manager.acceptConnection, Ledger.acceptConnection]
    cases hfind : s.banned.find? fun bn => bn.address = peerAddress with
    | some bn =>
      rw [hfind] at hno
      dsimp only at hno ⊢
      rw [if_neg hno]
      split
      all_goals exact nofun
    | none =>
      rw [hfind] at hno
      dsimp only at hno ⊢
      rw [if_pos (by omega)]
      exact nofun

/-! ## Runs -/

theorem Agrees.outcomes_iff (h : Agrees now s l) (calls : List (ℕ × Op Address)) :
    s.outcomes now calls = some (l.outcomes now calls) ↔ s.Meets now calls := by
  induction calls generalizing now s l with
  | nil => exact iff_of_true rfl trivial
  | cons call calls ih =>
    obtain ⟨gap, op⟩ := call
    have h := h.later gap
    rw [Manager.outcomes, Ledger.outcomes, Manager.Meets]
    by_cases hok : s.StepOk (now + gap) op
    · obtain ⟨s', hs', hagrees⟩ := h.step hok
      have ih := ih hagrees
      rw [hs']
      constructor
      · intro hsame
        obtain ⟨rest, hrest, hcons⟩ := Option.map_eq_some_iff.mp hsame
        rw [List.cons.injEq] at hcons
        refine ⟨hok, ?_⟩
        rintro _ _ ⟨⟩
        exact ih.mp (hcons.2 ▸ hrest)
      · rintro ⟨-, hmeets⟩
        exact Option.map_eq_some_iff.mpr ⟨_, ih.mpr (hmeets s' _ rfl), rfl⟩
    · apply iff_of_false
      · intro hsame
        cases hs' : s.step (now + gap) op with
        | none =>
          rw [hs'] at hsame
          cases hsame
        | some r =>
          rw [hs'] at hsame
          obtain ⟨rest, -, hcons⟩ := Option.map_eq_some_iff.mp hsame
          rw [List.cons.injEq] at hcons
          apply h.step_ne hok r.1
          rw [hs', ← hcons.1]
      · exact fun hmeets => hok hmeets.1

end

/-- What is seen of a run of the network manager is what the ledger says, exactly when no score gets
past 1000 without a `short` that shows it, no expired ban is the first one listed for an address that
connects, and the ids do not run out. -/
theorem outcomes_iff_meets [DecidableEq Address] (s : Manager Address) (hs : s.Fresh) (now : ℕ)
    (calls : List (ℕ × Op Address)) :
    s.outcomes now calls = some (s.ledger.outcomes now calls) ↔ s.Meets now calls :=
  (agrees_ledger hs now).outcomes_iff calls

/-- A manager that has just been started. -/
def started : Manager ℕ := ⟨fun _ => none, 0, []⟩

theorem started_fresh : started.Fresh := ⟨rfl, nofun⟩

/-- A peer that is banned and comes back too early. -/
theorem outcomes_iff_meets_started :
    started.outcomes 0 [(0, .acceptConnection 7), (1, .punishNode 1 600), (1, .punishNode 1 400),
        (86399, .acceptConnection 7)] =
      some (started.ledger.outcomes 0 [(0, .acceptConnection 7), (1, .punishNode 1 600),
        (1, .punishNode 1 400), (86399, .acceptConnection 7)]) ↔
    started.Meets 0 [(0, .acceptConnection 7), (1, .punishNode 1 600), (1, .punishNode 1 400),
      (86399, .acceptConnection 7)] :=
  outcomes_iff_meets started started_fresh 0 _

/-- A peer that comes back when its ban has run out, and one that is punished too much. -/
theorem outcomes_ne :
    started.outcomes 0 [(0, .acceptConnection 7), (1, .punishNode 1 1000),
        (86400, .acceptConnection 7)] = some [.served 1, .banned 7, .leftOpen] ∧
      started.ledger.outcomes 0 [(0, .acceptConnection 7), (1, .punishNode 1 1000),
        (86400, .acceptConnection 7)] = [.served 1, .banned 7, .served 2] ∧
      started.outcomes 0 [(0, .acceptConnection 7), (1, .punishNode 1 40000)] =
        some [.served 1, .nothing] ∧
      started.ledger.outcomes 0 [(0, .acceptConnection 7), (1, .punishNode 1 40000)] =
        [.served 1, .banned 7] := by
  decide

end PeerBans
