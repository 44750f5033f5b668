/-
# The handshake of a block with its parent

Two conditions have to meet before the transactions of a block are looked at: its contextual
checks have passed (`BlockValidChainHeaders`, set by a worker in `checks2HaveParentHeaders`), and
its parent is in the chain (`BlockValidParent`, set on the strand in the parent's
`signalChildren`).  Both are bits of the atomic `m_validationStatus`, each is set in a loop around
`compare_exchange_weak`, and whoever finds the other bit in the old value posts
`updateUtxoAndStartValidation`, which asserts that it runs once
(`libs/server/validation/BlockValidation.cpp`).

`checks2HaveParentHeaders` also posts when it finds `BlockInvalid`, and `signalChildren` does not
look at that bit.  A mark on the child alone, before its checks end, and a signal after that start
the block twice; and a child that nobody holds any more when its parent signals is not started at
all (`not_startOnce`).  In the engine a mark comes through the parent, which is marked first, and
`processNewBlock` does not signal the children of an invalid block: `startOnce_of_no_mark`.
-/
import Hub.Runs

namespace Validation

/-- The bits of `BlockValidationStatus`. -/
structure Status where
  validHeader : Bool
  validTree : Bool
  validChainHeaders : Bool
  validParent : Bool
  invalid : Bool
  deriving DecidableEq

/-- `BlockValidityUnknown`. -/
def Status.unknown : Status := ⟨false, false, false, false, false⟩

/-- What the strand finds about the parent of a block. -/
structure ParentEntry where
  /-- The parent is in `blocksBeingValidated`. -/
  inFlight : Bool
  /-- The parent has an index. -/
  hasIndex : Bool
  /-- `IsValid(BLOCK_VALID_TRANSACTIONS)`. -/
  validTransactions : Bool
  /-- `BLOCK_FAILED_MASK`. -/
  failed : Bool
  nChainTx : ℕ
  deriving DecidableEq

namespace Handshake

/-- Where the child's object is. -/
inductive Place
  /-- Its header is not checked yet. -/
  | fresh
  /-- In `orphanBlocks`. -/
  | parked
  /-- Its header is accepted, and `checks2HaveParentHeaders` is not posted. -/
  | accepted
  /-- `checks2HaveParentHeaders` is posted. -/
  | posted
  /-- In the loop at the end of `checks2HaveParentHeaders`, with the value of `status`. -/
  | swapping (status : Status)
  /-- `checks2HaveParentHeaders` has set `BlockValidChainHeaders`. -/
  | passed
  /-- Its header was refused, or `checks2HaveParentHeaders` failed. -/
  | failed
  deriving DecidableEq

/-- What the strand is doing for the parent. -/
inductive Strand
  | idle
  /-- In `signalChildren`, with the entries of `m_chainChildren` still to visit, and with the value
  of `status` once the child's object is locked. -/
  | signalling (left : ℕ) (status : Option Status)
  /-- In `recursivelyMark`, with the entries still to visit. -/
  | marking (left : ℕ)
  deriving DecidableEq

end Handshake

open Handshake in
/-- The object of a block and the object of its parent. -/
structure Handshake where
  /-- `BlockInvalid` of the parent. -/
  parentInvalid : Bool
  /-- `processNewBlock` is through with the parent: it has no `m_blockIndex`, and it is not in
  `blocksBeingValidated`. -/
  parentHandled : Bool
  /-- How often the child stands in the parent's `m_chainChildren`. -/
  chainChildren : ℕ
  status : Status
  place : Place
  /-- The child's object exists: somebody holds it. -/
  alive : Bool
  strand : Strand
  /-- How often `updateUtxoAndStartValidation` was posted for the child. -/
  started : ℕ
  /-- `signalChildren` has ended with the child in `m_chainChildren`. -/
  signalled : Bool
  /-- `signalChildren` has set the bit in the child. -/
  reached : Bool
  /-- The assertion in `signalChildren` has failed. -/
  assertFailed : Bool
  deriving DecidableEq

namespace Handshake

def initial : Handshake where
  parentInvalid := false
  parentHandled := false
  chainChildren := 0
  status := .unknown
  place := .fresh
  alive := true
  strand := .idle
  started := 0
  signalled := false
  reached := false
  assertFailed := false

/-! ## How the child comes to its parent -/

/-- `m_chainChildren.push_back`. -/
def push (s : Handshake) : Handshake := { s with chainChildren := s.chainChildren + 1 }

/-- `fetch_or(BlockValidParent)`. -/
def setValidParent (s : Handshake) : Handshake :=
  { s with status := { s.status with validParent := true } }

/-- `fetch_or(BlockInvalid)`. -/
def setInvalid (s : Handshake) : Handshake :=
  { s with status := { s.status with invalid := true } }

/-- `blockHeaderValidated` on a block whose index is known. -/
def knownIndex (s : Handshake) (p : ParentEntry) (isGenesis : Bool) : Handshake :=
  let s :=
    if isGenesis then s
    else if p.inFlight then s.push
    else if p.validTransactions then s.setValidParent
    else s
  if isGenesis then s.setValidParent else s

/-- `createBlockIndexFor`. -/
def createBlockIndexFor (s : Handshake) (p : ParentEntry) (isGenesis : Bool) : Handshake :=
  let s :=
    if p.inFlight then s.push
    else if p.hasIndex && p.validTransactions then s.setValidParent
    else s
  if p.inFlight || p.hasIndex then
    if p.failed then s.setInvalid else s
  else if isGenesis then s.setValidParent
  else s

/-- The start of `blockHeaderValidated`, up to the call of `createBlockIndexFor`.  `hasFailed` is
the outcome of `checks1NoContext`. -/
def checkPastWork (s : Handshake) (known hasFailed : Bool) (p : ParentEntry) (isGenesis : Bool) :
    Handshake :=
  let s := { s with status := { s.status with validHeader := !hasFailed, invalid := hasFailed } }
  if known then s.knownIndex p isGenesis else s.createBlockIndexFor p isGenesis

/-- `blockHeaderValidated` up to the search for orphans. -/
def blockHeaderValidated (s : Handshake) (known hasFailed : Bool) (p : ParentEntry)
    (isGenesis : Bool) : Handshake :=
  let s := s.checkPastWork known hasFailed p isGenesis
  if s.status.invalid then { s with place := .failed }
  else if !known && !p.inFlight && !p.hasIndex && !isGenesis then { s with place := .parked }
  else { s with place := .accepted }

/-- `startOrphanWithParent`, when it comes to the child. -/
def startOrphanWithParent (s : Handshake) : Handshake :=
  let s := if s.chainChildren = 0 then s.push else s
  { s with place := .accepted }

/-- The last lines of `blockHeaderValidated`. -/
def moveOn (s : Handshake) : Handshake :=
  { s with status := { s.status with validTree := true }, place := .posted }

/-- `findMoreJobs`, when it comes to the child. -/
def findMoreJobs (s : Handshake) (p : ParentEntry) : Handshake :=
  let s := { s with status := { Status.unknown with validHeader := true, validTree := true } }
  let s :=
    if p.inFlight then s.push
    else if p.nChainTx ≠ 0 then s.setValidParent
    else s
  { s with place := .posted }

/-! ## The two loops -/

/-- `checks2HaveParentHeaders` up to its loop. -/
def checks2HaveParentHeaders (s : Handshake) (ok : Bool) : Handshake :=
  if ok then { s with place := .swapping s.status } else { s.setInvalid with place := .failed }

/-- A round of the loop of `checks2HaveParentHeaders`.  The exchange may fail without a reason. -/
def swapChainHeaders (s : Handshake) (status : Status) (spurious : Bool) : Handshake :=
  if spurious || s.status ≠ status then { s with place := .swapping s.status }
  else { s with
    status := { s.status with validChainHeaders := true }
    place := .passed
    started := if status.validParent || status.invalid then s.started + 1 else s.started }

/-- The head of the loop of `signalChildren`: `status` is loaded, and it must not have
`BlockValidParent` yet. -/
def loadStatus (s : Handshake) (left : ℕ) : Handshake :=
  { s with
    strand := .signalling left (some s.status)
    assertFailed := s.assertFailed || s.status.validParent }

/-- A round of the loop of `signalChildren`. -/
def swapParent (s : Handshake) (left : ℕ) (status : Status) (spurious : Bool) : Handshake :=
  if spurious || s.status ≠ status then s.loadStatus (left + 1)
  else { s with
    status := { s.status with validParent := true }
    strand := .signalling left none
    started := if status.validChainHeaders then s.started + 1 else s.started
    reached := true }

/-- A step of `signalChildren`. -/
def signalChildren (s : Handshake) (left : ℕ) (status : Option Status) (spurious : Bool) :
    Handshake :=
  match left, status with
  | 0, _ =>
      { s with
        strand := .idle
        parentHandled := true
        signalled := s.signalled || decide (s.chainChildren ≠ 0) }
  | left + 1, none =>
      if s.alive then s.loadStatus (left + 1) else { s with strand := .signalling left none }
  | left + 1, some status => s.swapParent left status spurious

/-- How `processNewBlock` ends for a parent without `BlockInvalid`. -/
inductive Outcome
  | added
  /-- It is not the next block, or not on the headers chain. -/
  | notAdded
  /-- It throws before it signals. -/
  | thrown
  deriving DecidableEq

/-- `processNewBlock` on the parent, up to the loop over its children. -/
def processNewBlock (s : Handshake) (outcome : Outcome) : Handshake :=
  if s.parentInvalid then { s with parentHandled := true, strand := .marking s.chainChildren }
  else
    match outcome with
    | .added => { s with strand := .signalling s.chainChildren none }
    | .notAdded => { s with parentHandled := true }
    | .thrown =>
        { s with parentInvalid := true, parentHandled := true, strand := .marking s.chainChildren }

/-- A step of `recursivelyMark`, in the parent's loop over its children. -/
def markChild (s : Handshake) (left : ℕ) : Handshake :=
  match left with
  | 0 => { s with strand := .idle }
  | left + 1 =>
      if s.alive then { s.setInvalid with strand := .marking left }
      else { s with strand := .marking left }

/-! ## Runs -/

inductive Event
  | blockHeaderValidated (known hasFailed : Bool) (p : ParentEntry) (isGenesis : Bool)
  | startOrphanWithParent
  | moveOn
  | findMoreJobs (p : ParentEntry)
  | checks2HaveParentHeaders (ok : Bool)
  /-- The worker takes a round of its loop. -/
  | swap (spurious : Bool)
  /-- `blockFailed` in a job of the parent. -/
  | parentFails
  /-- `blockFailed` in a job of the child that follows `updateUtxoAndStartValidation`. -/
  | childFails
  | processNewBlock (outcome : Outcome)
  /-- `recursivelyMark` comes to the parent, from above. -/
  | recursivelyMark
  /-- The strand goes on with a loop over `m_chainChildren`. -/
  | next (spurious : Bool)
  /-- The last reference to the child's object goes away. -/
  | release
  /-- `recursivelyMark` comes to the child by itself. -/
  | mark
  deriving DecidableEq

/-- A step; `none` is an event that cannot come now.  The header is checked once, the functions
of the engine run on the strand, one after the other, and a posted job holds its object. -/
def step (s : Handshake) : Event → Option Handshake
  | .blockHeaderValidated known hasFailed p isGenesis =>
      if s.strand = .idle ∧ s.place = .fresh ∧ (p.inFlight = true → s.parentHandled = false) then
        some (s.blockHeaderValidated known hasFailed p isGenesis) else none
  | .startOrphanWithParent =>
      if s.strand = .idle ∧ s.place = .parked ∧ s.parentHandled = false then
        some s.startOrphanWithParent else none
  | .moveOn => if s.strand = .idle ∧ s.place = .accepted ∧ s.alive = true then some s.moveOn else none
  | .findMoreJobs p =>
      if s.strand = .idle ∧ s.place = .fresh ∧ (p.inFlight = true → s.parentHandled = false) then
        some (s.findMoreJobs p) else none
  | .checks2HaveParentHeaders ok =>
      if s.place = .posted then some (s.checks2HaveParentHeaders ok) else none
  | .swap spurious =>
      match s.place with
      | .swapping status => some (s.swapChainHeaders status spurious)
      | _ => none
  | .parentFails =>
      -- the parent's own jobs have ended when `processNewBlock` runs
      if s.strand = .idle ∧ s.parentHandled = false then some { s with parentInvalid := true }
      else none
  | .childFails => if 0 < s.started then some s.setInvalid else none
  | .processNewBlock outcome =>
      if s.strand = .idle ∧ s.parentHandled = false then some (s.processNewBlock outcome) else none
  | .recursivelyMark =>
      if s.strand = .idle then
        some { s with parentInvalid := true, strand := .marking s.chainChildren } else none
  | .next spurious =>
      match s.strand with
      | .idle => none
      | .signalling left status => some (s.signalChildren left status spurious)
      | .marking left => some (s.markChild left)
  | .release =>
      if s.place = .accepted ∨ s.place = .passed ∨ s.place = .failed then
        some { s with alive := false } else none
  | .mark => some s.setInvalid

/-- The block is started at most once, it is started when its checks have passed and its parent
has signalled, and no assertion fails. -/
def StartOnce (s : Handshake) : Prop :=
  s.started ≤ 1 ∧ (s.place = .passed → s.signalled = true → s.started = 1) ∧
    s.assertFailed = false

/-- `StartOnce`, where the signal counts that finds the child's object. -/
def StartReachedOnce (s : Handshake) : Prop :=
  s.started ≤ 1 ∧ (s.place = .passed → s.reached = true → s.started = 1) ∧
    s.assertFailed = false

/-! ## The invariant -/

/-- The entries of `m_chainChildren` that `signalChildren` may still visit. -/
def unsignalled (s : Handshake) : ℕ :=
  match s.strand with
  | .signalling left _ => left
  | _ => if s.parentHandled then 0 else s.chainChildren

structure Inv (s : Handshake) : Prop where
  children : s.chainChildren ≤ 1
  unsignalled_le : s.unsignalled ≤ s.chainChildren
  /-- A child that has no parent yet stands in no list and has no bit. -/
  unborn : s.place = .fresh ∨ s.place = .parked →
    s.chainChildren = 0 ∧ s.status.validParent = false
  checked : s.place = .passed ↔ s.status.validChainHeaders = true
  unstarted : s.place ≠ .passed → s.started = 0
  /-- A child whose parent may still signal does not have the bit. -/
  waiting : 0 < s.unsignalled → s.status.validParent = false
  once : s.started ≤ 1
  last : s.place = .passed → s.status.validParent = true → s.started = 1
  why : s.started = 1 → s.status.validParent = true ∨ s.parentInvalid = true
  /-- Before the child starts, a mark comes from an invalid parent. -/
  marked : s.status.invalid = true →
    s.place = .failed ∨ s.parentInvalid = true ∨ s.started = 1
  signalling : ∀ left status, s.strand = .signalling left status →
    s.parentInvalid = false ∧ s.parentHandled = false
  loaded : ∀ left status, s.strand = .signalling left (some status) → status.validParent = false
  marking : ∀ left, s.strand = .marking left → s.parentInvalid = true
  reaches : s.reached = true → s.status.validParent = true
  holds : s.assertFailed = false

theorem inv_initial : Inv initial := by
  constructor <;> simp [initial, unsignalled, Status.unknown]

variable {s t : Handshake} {p : ParentEntry} {status : Status} {left : ℕ}

theorem unsignalled_of_idle (h : s.strand = .idle) :
    s.unsignalled = if s.parentHandled then 0 else s.chainChildren := by
  rw [unsignalled, h]

theorem unsignalled_of_signalling {status : Option Status} (h : s.strand = .signalling left status) :
    s.unsignalled = left := by
  rw [unsignalled, h]

/-! ## The child comes to its parent -/

/-- The child is put into the list or gets the bit, but not both. -/
def Registered (s t : Handshake) : Prop :=
  ∃ (pushed valid invalid : Bool), ¬ (pushed = true ∧ valid = true) ∧
    t = { s with
      chainChildren := s.chainChildren + pushed.toNat
      status := { s.status with
        validParent := s.status.validParent || valid
        invalid := s.status.invalid || invalid } }

theorem registered_refl (s : Handshake) : Registered s s :=
  ⟨false, false, false, by simp, by simp⟩

theorem registered_push (s : Handshake) : Registered s s.push :=
  ⟨true, false, false, by simp, by simp [push]⟩

theorem registered_setValidParent (s : Handshake) : Registered s s.setValidParent :=
  ⟨false, true, false, by simp, by simp [setValidParent]⟩

theorem Registered.setInvalid (h : Registered s t) : Registered s t.setInvalid := by
  obtain ⟨pushed, valid, invalid, hne, rfl⟩ := h
  exact ⟨pushed, valid, true, hne, by simp [Handshake.setInvalid]⟩

theorem registered_knownIndex (s : Handshake) (p : ParentEntry) (isGenesis : Bool) :
    Registered s (s.knownIndex p isGenesis) := by
  unfold knownIndex
  cases isGenesis with
  | true => exact registered_setValidParent s
  | false =>
    simp only [Bool.false_eq_true, if_false]
    split_ifs with hflight hvalid
    · exact registered_push s
    · exact registered_setValidParent s
    · exact registered_refl s

theorem registered_createBlockIndexFor (s : Handshake) (p : ParentEntry) (isGenesis : Bool) :
    Registered s (s.createBlockIndexFor p isGenesis) := by
  unfold createBlockIndexFor
  cases hflight : p.inFlight with
  | true =>
    simp only [if_true, Bool.true_or]
    split_ifs with hfailed
    · exact (registered_push s).setInvalid
    · exact registered_push s
  | false =>
    cases hindex : p.hasIndex with
    | true =>
      simp only [Bool.false_eq_true, if_false, Bool.true_and, Bool.or_true, if_true]
      have hvalid : Registered s (if p.validTransactions = true then s.setValidParent else s) := by
        split_ifs
        · exact registered_setValidParent s
        · exact registered_refl s
      cases hfailed : p.failed with
      | true => exact hvalid.setInvalid
      | false => exact hvalid
    | false =>
      simp only [Bool.false_eq_true, if_false, Bool.false_and, Bool.or_false]
      split_ifs with hgenesis
      · exact registered_setValidParent s
      · exact registered_refl s

/-- A block without a known parent is not registered. -/
theorem createBlockIndexFor_of_unknown (hflight : p.inFlight = false) (hindex : p.hasIndex = false) :
    s.createBlockIndexFor p false = s := by
  simp [createBlockIndexFor, hflight, hindex]

/-- A child that leaves its first place. -/
theorem Inv.enter (h : Inv s) (hstrand : s.strand = .idle)
    (hplace : s.place = .fresh ∨ s.place = .parked) {c : ℕ} {q : Place} (hc : c ≤ 1)
    (hpending : c = 0 ∨ status.validParent = false) (hcheck : status.validChainHeaders = false)
    (hq : q ≠ .passed) (hunborn : q = .fresh ∨ q = .parked → c = 0 ∧ status.validParent = false)
    (hinvalid : status.invalid = true → q = .failed ∨ s.parentInvalid = true) :
    Inv { s with chainChildren := c, status := status, place := q } := by
  have hstarted : s.started = 0 := h.unstarted fun hpassed => by simp [hpassed] at hplace
  have hreached : ¬ s.reached = true := fun hr => by
    have := h.reaches hr
    rw [(h.unborn hplace).2] at this
    cases this
  have hunsignalled := unsignalled_of_idle (s := { s with
    chainChildren := c, status := status, place := q }) hstrand
  refine { h with
    children := hc
    unsignalled_le := ?_
    unborn := hunborn
    checked := ?_
    unstarted := fun _ => hstarted
    waiting := ?_
    last := fun hpassed => absurd hpassed hq
    why := fun hone => ?_
    marked := fun hi => (hinvalid hi).imp id .inl
    reaches := fun hr => absurd hr hreached }
  · rw [hunsignalled]
    split_ifs
    · exact Nat.zero_le c
    · exact Nat.le_refl c
  · exact ⟨fun hpassed => absurd hpassed hq, fun hcon => by simp [hcheck] at hcon⟩
  · intro hpos
    rw [hunsignalled] at hpos
    rcases hpending with hzero | hvalid
    · split_ifs at hpos
      · omega
      · exact absurd hzero (Nat.pos_iff_ne_zero.mp hpos)
    · exact hvalid
  · exact absurd (hstarted.symm.trans hone) (by decide)

/-- The child is registered, and moves to a place behind that. -/
theorem Inv.enter_of_registered (h : Inv s) (hstrand : s.strand = .idle)
    (hplace : s.place = .fresh ∨ s.place = .parked) (ht : Registered { s with status := status } t)
    (hvalid : status.validParent = false) (hcheck : status.validChainHeaders = false) (q : Place)
    (hq : q = .accepted ∨ q = .posted ∨ q = .failed)
    (hinvalid : t.status.invalid = true → q = .failed) : Inv { t with place := q } := by
  obtain ⟨pushed, valid, invalid, hne, rfl⟩ := ht
  have hzero : s.chainChildren = 0 := (h.unborn hplace).1
  refine h.enter hstrand hplace ?_ ?_ hcheck ?_ ?_ fun hi => .inl (hinvalid hi)
  · rw [hzero]
    cases pushed <;> simp
  · cases pushed with
    | true => exact .inr (by simpa [hvalid] using hne)
    | false => exact .inl (by rw [hzero]; rfl)
  · rintro rfl
    simp at hq
  · rintro (rfl | rfl) <;> simp at hq

theorem Inv.blockHeaderValidated (h : Inv s) (hstrand : s.strand = .idle) (hplace : s.place = .fresh)
    (known hasFailed : Bool) (p : ParentEntry) (isGenesis : Bool) :
    Inv (s.blockHeaderValidated known hasFailed p isGenesis) := by
  obtain ⟨hzero, hvalid⟩ := h.unborn (.inl hplace)
  have hcheck : s.status.validChainHeaders = false := by
    by_contra hcon
    have := h.checked.mpr (by simpa using hcon)
    rw [hplace] at this
    cases this
  have hreg : Registered { s with status := { s.status with
      validHeader := !hasFailed, invalid := hasFailed } }
      (s.checkPastWork known hasFailed p isGenesis) := by
    unfold checkPastWork
    dsimp only
    split_ifs
    · exact registered_knownIndex _ p isGenesis
    · exact registered_createBlockIndexFor _ p isGenesis
  have henter := h.enter_of_registered hstrand (.inl hplace) hreg hvalid hcheck
  unfold Handshake.blockHeaderValidated
  dsimp only
  split_ifs with hinvalid hparked
  · exact henter _ (.inr (.inr rfl)) fun _ => rfl
  · -- an orphan is not registered
    simp only [Bool.and_eq_true, Bool.not_eq_true'] at hparked
    obtain ⟨⟨⟨rfl, hflight⟩, hindex⟩, rfl⟩ := hparked
    rw [checkPastWork, if_neg (by decide), createBlockIndexFor_of_unknown hflight hindex] at hinvalid ⊢
    exact h.enter hstrand (.inl hplace) h.children (.inl hzero) hcheck (by simp)
      (fun _ => ⟨hzero, hvalid⟩) fun hi => absurd hi hinvalid
  · exact henter _ (.inl rfl) fun hi => absurd hi hinvalid

theorem Inv.startOrphanWithParent (h : Inv s) (hstrand : s.strand = .idle)
    (hplace : s.place = .parked) : Inv s.startOrphanWithParent := by
  obtain ⟨hzero, hvalid⟩ := h.unborn (.inr hplace)
  have hcheck : s.status.validChainHeaders = false := by
    by_contra hcon
    have := h.checked.mpr (by simpa using hcon)
    rw [hplace] at this
    cases this
  have hstarted : s.started = 0 := h.unstarted (by simp [hplace])
  unfold Handshake.startOrphanWithParent
  rw [if_pos hzero]
  refine h.enter hstrand (.inr hplace) ?_ (.inr hvalid) hcheck (by simp) (by simp) ?_
  · show s.chainChildren + 1 ≤ 1
    omega
  intro hi
  rcases h.marked hi with hfailed | hparent | hone
  · rw [hplace] at hfailed
    cases hfailed
  · exact .inr hparent
  · omega

theorem Inv.findMoreJobs (h : Inv s) (hstrand : s.strand = .idle) (hplace : s.place = .fresh)
    (p : ParentEntry) : Inv (s.findMoreJobs p) := by
  unfold Handshake.findMoreJobs
  dsimp only
  have hreg : Registered { s with status := { Status.unknown with
      validHeader := true, validTree := true } } _ := registered_refl _
  split_ifs
  · exact h.enter_of_registered hstrand (.inl hplace) (registered_push _) rfl rfl _ (.inr (.inl rfl))
      fun hi => by cases hi
  · exact h.enter_of_registered hstrand (.inl hplace) (registered_setValidParent _) rfl rfl _
      (.inr (.inl rfl)) fun hi => by cases hi
  · exact h.enter_of_registered hstrand (.inl hplace) hreg rfl rfl _ (.inr (.inl rfl))
      fun hi => by cases hi

theorem Inv.moveOn (h : Inv s) (hplace : s.place = .accepted) : Inv s.moveOn :=
  { h with
    unborn := by simp [Handshake.moveOn]
    checked := by
      have := h.checked
      simpa [Handshake.moveOn, hplace] using this
    unstarted := fun _ => h.unstarted (by simp [hplace])
    last := by simp [Handshake.moveOn]
    marked := fun hi => .inr ((h.marked hi).resolve_left (by simp [hplace])) }

/-! ## The two loops -/

theorem Inv.setInvalid (h : Inv s)
    (hwhy : s.place = .failed ∨ s.parentInvalid = true ∨ s.started = 1) : Inv s.setInvalid :=
  { h with marked := fun _ => hwhy }

theorem Inv.checks2HaveParentHeaders (h : Inv s) (hplace : s.place = .posted) (ok : Bool) :
    Inv (s.checks2HaveParentHeaders ok) := by
  have hnot : ¬ s.status.validChainHeaders = true := fun hcon => by
    have := h.checked.mpr hcon
    rw [hplace] at this
    cases this
  have hstarted : s.started = 0 := h.unstarted (by simp [hplace])
  unfold Handshake.checks2HaveParentHeaders
  cases ok with
  | true =>
    exact { h with
      unborn := by simp
      checked := ⟨by simp, fun hcon => absurd hcon hnot⟩
      unstarted := fun _ => hstarted
      last := by simp
      marked := fun hi => .inr ((h.marked hi).resolve_left (by simp [hplace])) }
  | false =>
    exact { h with
      unborn := by simp
      checked := ⟨by simp, fun hcon => absurd hcon hnot⟩
      unstarted := fun _ => hstarted
      last := by simp
      marked := fun _ => .inl rfl }

/-- The worker sets its bit, and starts the block if the parent was there before it. -/
theorem Inv.swapChainHeaders (h : Inv s) (hplace : s.place = .swapping status) (spurious : Bool) :
    Inv (s.swapChainHeaders status spurious) := by
  have hnot : ¬ s.status.validChainHeaders = true := fun hcon => by
    have := h.checked.mpr hcon
    rw [hplace] at this
    cases this
  have hstarted : s.started = 0 := h.unstarted (by simp [hplace])
  have hmarked : s.status.invalid = true → s.parentInvalid = true := by
    intro hi
    rcases h.marked hi with hfailed | hparent | hone
    · rw [hplace] at hfailed
      cases hfailed
    · exact hparent
    · omega
  unfold Handshake.swapChainHeaders
  by_cases hswap : (spurious || s.status ≠ status) = true
  · rw [if_pos hswap]
    exact { h with
      unborn := by simp
      checked := ⟨by simp, fun hcon => absurd hcon hnot⟩
      unstarted := fun _ => hstarted
      last := by simp
      marked := fun hi => .inr (.inl (hmarked hi)) }
  · rw [if_neg hswap]
    obtain rfl : s.status = status := by
      by_contra hne
      exact hswap (by simp [hne])
    refine { h with
      unborn := by simp
      checked := by simp
      unstarted := by simp
      once := ?_
      last := ?_
      why := ?_
      marked := fun hi => .inr (.inl (hmarked hi)) }
    · dsimp only
      split_ifs <;> omega
    · intro _ hvalid
      dsimp only at hvalid ⊢
      rw [if_pos (by simp [hvalid]), hstarted]
    · intro hone
      dsimp only at hone
      split_ifs at hone with hbits
      · rcases Bool.or_eq_true_iff.mp hbits with hvalid | hinvalid
        · exact .inl hvalid
        · exact .inr (hmarked hinvalid)
      · omega

/-- The assertion in `signalChildren`. -/
theorem Inv.loadStatus (h : Inv s) {status : Option Status}
    (hstrand : s.strand = .signalling (left + 1) status) : Inv (s.loadStatus (left + 1)) := by
  have hun := unsignalled_of_signalling hstrand
  have hvalid : s.status.validParent = false := h.waiting (by omega)
  exact { h with
    unsignalled_le := hun ▸ h.unsignalled_le
    waiting := fun _ => hvalid
    signalling := fun _ _ _ => h.signalling _ _ hstrand
    loaded := by
      rintro _ _ heq
      obtain ⟨-, heq⟩ := Strand.signalling.inj heq
      obtain rfl := Option.some.inj heq
      exact hvalid
    marking := fun _ heq => by cases heq
    holds := by
      show (s.assertFailed || s.status.validParent) = false
      rw [h.holds, hvalid]
      rfl }

/-- The strand sets its bit, and starts the block if its checks were over before. -/
theorem Inv.swapParent (h : Inv s) (hstrand : s.strand = .signalling (left + 1) (some status))
    (spurious : Bool) : Inv (s.swapParent left status spurious) := by
  have hun := unsignalled_of_signalling hstrand
  have hle := h.unsignalled_le
  have hchildren := h.children
  obtain ⟨hparent, hhandled⟩ := h.signalling _ _ hstrand
  have hvalid : s.status.validParent = false := h.waiting (by omega)
  -- a block that is started has the bit, or an invalid parent
  have hstarted : s.started = 0 := by
    by_contra hcon
    have hone := h.once
    rcases h.why (by omega) with hcon | hcon
    · rw [hvalid] at hcon
      cases hcon
    · rw [hparent] at hcon
      cases hcon
  unfold Handshake.swapParent
  by_cases hswap : (spurious || s.status ≠ status) = true
  · rw [if_pos hswap]
    exact h.loadStatus hstrand
  · rw [if_neg hswap]
    obtain rfl : s.status = status := by
      by_contra hne
      exact hswap (by simp [hne])
    exact { h with
      unsignalled_le := by show left ≤ s.chainChildren; omega
      unborn := fun hp => by
        have := (h.unborn hp).1
        omega
      unstarted := fun hp => by
        have hcheck : ¬ s.status.validChainHeaders = true := fun hcon => hp (h.checked.mpr hcon)
        show (if _ then _ else _) = 0
        rw [if_neg hcheck, hstarted]
      waiting := fun hpos => by
        have : 0 < left := hpos
        omega
      once := by
        show (if _ then s.started + 1 else s.started) ≤ 1
        rw [hstarted]
        split_ifs <;> decide
      last := fun hp _ => by
        show (if _ then _ else _) = 1
        rw [if_pos (h.checked.mp hp), hstarted]
      why := fun _ => .inl rfl
      marked := fun hi => by
        rcases h.marked hi with hfailed | hcon | hcon
        · exact .inl hfailed
        · rw [hparent] at hcon
          cases hcon
        · omega
      signalling := fun _ _ _ => ⟨hparent, hhandled⟩
      loaded := fun _ _ heq => by
        obtain ⟨-, heq⟩ := Strand.signalling.inj heq
        cases heq
      marking := fun _ heq => by cases heq
      reaches := fun _ => rfl }

theorem Inv.signalChildren (h : Inv s) {status : Option Status}
    (hstrand : s.strand = .signalling left status) (spurious : Bool) :
    Inv (s.signalChildren left status spurious) := by
  have hun := unsignalled_of_signalling hstrand
  have hle := h.unsignalled_le
  match left, status with
  | 0, status =>
    exact { h with
      unsignalled_le := Nat.zero_le _
      waiting := fun hpos => absurd hpos (Nat.lt_irrefl 0)
      signalling := fun _ _ heq => by cases heq
      loaded := fun _ _ heq => by cases heq
      marking := fun _ heq => by cases heq }
  | left + 1, none =>
    unfold Handshake.signalChildren
    dsimp only
    split_ifs
    · exact h.loadStatus hstrand
    · exact { h with
        unsignalled_le := by show left ≤ s.chainChildren; omega
        waiting := fun _ => h.waiting (by omega)
        signalling := fun _ _ _ => h.signalling _ _ hstrand
        loaded := fun _ _ heq => by
          obtain ⟨-, heq⟩ := Strand.signalling.inj heq
          cases heq
        marking := fun _ heq => by cases heq }
  | left + 1, some status => exact h.swapParent hstrand spurious

/-! ## The parent ends, and marks -/

theorem Inv.processNewBlock (h : Inv s) (hstrand : s.strand = .idle) (hhandled : s.parentHandled = false)
    (outcome : Outcome) : Inv (s.processNewBlock outcome) := by
  have hun : s.unsignalled = s.chainChildren := by
    rw [unsignalled_of_idle hstrand, if_neg (by simp [hhandled])]
  -- the children of a block that is not added are not signalled any more
  have hmark : s.parentInvalid = true →
      Inv { s with parentHandled := true, strand := .marking s.chainChildren } := fun hparent =>
    { h with
      unsignalled_le := Nat.zero_le _
      waiting := fun hpos => absurd hpos (Nat.lt_irrefl 0)
      signalling := fun _ _ heq => by cases heq
      loaded := fun _ _ heq => by cases heq
      marking := fun _ _ => hparent }
  unfold Handshake.processNewBlock
  split_ifs with hparent
  · exact hmark hparent
  · cases outcome with
    | added =>
      exact { h with
        unsignalled_le := Nat.le_refl _
        waiting := fun hpos => h.waiting (hun.symm ▸ hpos)
        signalling := fun _ _ _ => ⟨by simpa using hparent, hhandled⟩
        loaded := fun _ _ heq => by
          obtain ⟨-, heq⟩ := Strand.signalling.inj heq
          cases heq
        marking := fun _ heq => by cases heq }
    | notAdded =>
      have hzero : unsignalled { s with parentHandled := true } = 0 := unsignalled_of_idle hstrand
      exact { h with
        unsignalled_le := by rw [hzero]; exact Nat.zero_le _
        waiting := fun hpos => by rw [hzero] at hpos; exact absurd hpos (Nat.lt_irrefl 0)
        signalling := fun _ _ heq => by rw [hstrand] at heq; cases heq }
    | thrown =>
      exact { h with
        unsignalled_le := Nat.zero_le _
        waiting := fun hpos => absurd hpos (Nat.lt_irrefl 0)
        why := fun _ => .inr rfl
        marked := fun _ => .inr (.inl rfl)
        signalling := fun _ _ heq => by cases heq
        loaded := fun _ _ heq => by cases heq
        marking := fun _ _ => rfl }

/-- The parent gets the bit of an invalid block. -/
theorem Inv.parentFails (h : Inv s) (hstrand : s.strand = .idle) :
    Inv { s with parentInvalid := true } :=
  { h with
    why := fun _ => .inr rfl
    marked := fun _ => .inr (.inl rfl)
    signalling := fun _ _ heq => by rw [hstrand] at heq; cases heq
    marking := fun _ _ => rfl }

/-- The strand moves on in the loop of `recursivelyMark`, or enters or leaves it. -/
theorem Inv.moveMark (h : Inv s) (hstrand : ∀ left status, s.strand ≠ .signalling left status)
    {strand : Strand} (hmark : strand = .idle ∨ ∃ left, strand = .marking left)
    (hparent : s.parentInvalid = true) : Inv { s with strand := strand } := by
  have hun : s.unsignalled = if s.parentHandled then 0 else s.chainChildren := by
    unfold unsignalled
    split
    · exact absurd ‹_› (hstrand _ _)
    · rfl
  have hun' : unsignalled { s with strand := strand } = s.unsignalled := by
    rw [hun]
    obtain rfl | ⟨left, rfl⟩ := hmark <;> rfl
  have hnot : ∀ left status, strand ≠ .signalling left status := by
    obtain rfl | ⟨left, rfl⟩ := hmark <;> simp
  exact { h with
    unsignalled_le := by rw [hun']; exact h.unsignalled_le
    waiting := fun hpos => h.waiting (hun' ▸ hpos)
    signalling := fun _ _ heq => absurd heq (hnot _ _)
    loaded := fun _ _ heq => absurd heq (hnot _ _)
    marking := fun _ _ => hparent }

theorem Inv.markChild (h : Inv s) (hstrand : s.strand = .marking left) : Inv (s.markChild left) := by
  have hparent := h.marking left hstrand
  have hnot : ∀ left status, s.strand ≠ .signalling left status := by simp [hstrand]
  cases left with
  | zero => exact h.moveMark hnot (.inl rfl) hparent
  | succ left =>
    unfold Handshake.markChild
    dsimp only
    split_ifs
    · exact (h.setInvalid (.inr (.inl hparent))).moveMark hnot (.inr ⟨left, rfl⟩) hparent
    · exact h.moveMark hnot (.inr ⟨left, rfl⟩) hparent

/-! ## Whole runs -/

theorem Inv.step {e : Event} (h : Inv s) (he : e ≠ .mark) (hs : s.step e = some t) : Inv t := by
  cases e with
  | blockHeaderValidated known hasFailed p isGenesis =>
    obtain ⟨hcond, ⟨⟩⟩ := Option.ite_none_right_eq_some.mp hs
    exact h.blockHeaderValidated hcond.1 hcond.2.1 known hasFailed p isGenesis
  | startOrphanWithParent =>
    obtain ⟨hcond, ⟨⟩⟩ := Option.ite_none_right_eq_some.mp hs
    exact h.startOrphanWithParent hcond.1 hcond.2.1
  | moveOn =>
    obtain ⟨hcond, ⟨⟩⟩ := Option.ite_none_right_eq_some.mp hs
    exact h.moveOn hcond.2.1
  | findMoreJobs p =>
    obtain ⟨hcond, ⟨⟩⟩ := Option.ite_none_right_eq_some.mp hs
    exact h.findMoreJobs hcond.1 hcond.2.1 p
  | checks2HaveParentHeaders ok =>
    obtain ⟨hplace, ⟨⟩⟩ := Option.ite_none_right_eq_some.mp hs
    exact h.checks2HaveParentHeaders hplace ok
  | swap spurious =>
    rw [Handshake.step] at hs
    split at hs
    · rename_i status hplace
      obtain rfl := Option.some.inj hs
      exact h.swapChainHeaders hplace spurious
    · cases hs
  | parentFails =>
    obtain ⟨hcond, ⟨⟩⟩ := Option.ite_none_right_eq_some.mp hs
    exact h.parentFails hcond.1
  | childFails =>
    obtain ⟨hpos, ⟨⟩⟩ := Option.ite_none_right_eq_some.mp hs
    have hone := h.once
    exact h.setInvalid (.inr (.inr (by omega)))
  | processNewBlock outcome =>
    obtain ⟨hcond, ⟨⟩⟩ := Option.ite_none_right_eq_some.mp hs
    exact h.processNewBlock hcond.1 hcond.2 outcome
  | recursivelyMark =>
    obtain ⟨hstrand, ⟨⟩⟩ := Option.ite_none_right_eq_some.mp hs
    exact (h.parentFails hstrand).moveMark (by simp [hstrand]) (.inr ⟨_, rfl⟩) rfl
  | next spurious =>
    rw [Handshake.step] at hs
    split at hs
    · cases hs
    · rename_i left status hstrand
      obtain rfl := Option.some.inj hs
      exact h.signalChildren hstrand spurious
    · rename_i left hstrand
      obtain rfl := Option.some.inj hs
      exact h.markChild hstrand
  | release =>
    obtain ⟨-, ⟨⟩⟩ := Option.ite_none_right_eq_some.mp hs
    exact { h with }
  | mark => exact absurd rfl he

/-- **A block starts once.**  For every history of a child and every interleaving with its parent
in which marks come through the parent. -/
theorem startOnce_of_no_mark (es : List Event) (he : .mark ∉ es)
    (hs : es.foldlM step initial = some s) : StartReachedOnce s := by
  have h : Inv s := Runs.foldlM_inv (P := Inv) (fun t e t' hmem ht hstep =>
    ht.step (fun heq => he (heq ▸ hmem)) hstep) inv_initial hs
  exact ⟨h.once, fun hpassed hreached => h.last hpassed (h.reaches hreached), h.holds⟩

/-- A parent that is being validated. -/
def beingValidated : ParentEntry := ⟨true, true, false, false, 0⟩

/-- A mark through the parent makes an exchange of the worker fail. -/
def markedRun : List Event :=
  [.findMoreJobs beingValidated, .checks2HaveParentHeaders true, .recursivelyMark, .next false,
    .swap false, .swap false, .next false]

/-- The parent signals after the worker. -/
def signalledRun : List Event :=
  [.blockHeaderValidated false false beingValidated false, .moveOn, .checks2HaveParentHeaders true,
    .swap false, .processNewBlock .added, .next false, .next false, .next false]

theorem startOnce_marked_and_signalled :
    (∃ s, markedRun.foldlM step initial = some s ∧ s.started = 1 ∧ StartReachedOnce s) ∧
    ∃ s, signalledRun.foldlM step initial = some s ∧ s.reached = true ∧ StartReachedOnce s :=
  ⟨⟨_, rfl, rfl, startOnce_of_no_mark markedRun (by decide) rfl⟩,
    ⟨_, rfl, rfl, startOnce_of_no_mark signalledRun (by decide) rfl⟩⟩

/-- A mark on the child alone, before the exchange of the worker, lets it start twice; and a child
that nobody holds when its parent signals does not start. -/
theorem not_startOnce :
    (∃ s, [.findMoreJobs beingValidated, .mark, .checks2HaveParentHeaders true, .swap false,
        .processNewBlock .added, .next false, .next false, .next false].foldlM step initial = some s ∧
      s.started = 2 ∧ ¬ StartOnce s) ∧
    (∃ s, [.findMoreJobs beingValidated, .checks2HaveParentHeaders true, .swap false, .release,
        .processNewBlock .added, .next false, .next false].foldlM step initial = some s ∧
      s.place = .passed ∧ s.signalled = true ∧ ¬ StartOnce s) := by
  refine ⟨⟨_, rfl, rfl, ?_⟩, ⟨_, rfl, rfl, rfl, ?_⟩⟩
  · rintro ⟨hle, -, -⟩
    exact absurd hle (by decide)
  · rintro ⟨-, hstart, -⟩
    exact absurd (hstart rfl rfl) (by decide)

end Handshake

end Validation
