/-
# Runs of the address manager

Any calls of a new address manager, with any clocks and random numbers.  The ids that it gives, the
attempts of an entry and its uselessness are counted by `int`s that never start again for an entry that
stays; `Few` says that the calls of a run are too few to reach the ends of these.

* `Within.step` : what a call adds to the counts;
* `always_tablesAgree` : whatever is added, tried or sent to other nodes, nothing fails, and the tables
  agree after each call;
* `always_goodTried`, `always_getAddr` : what follows for `Good` and `GetAddr`.
-/
import Hub.AddrMan

namespace AddrMan

namespace CAddrMan

variable {P : Placement} {s s' : CAddrMan} {nId : ℕ} {info info' : CAddrInfo}
  {a t u : ℕ}

/-! ## What has been counted -/

/-- The ids, attempts and uselessness that a manager holds are at most those given. -/
structure Within (s : CAddrMan) (adds attempts scores : ℕ) : Prop where
  ids : s.nIdCount ≤ adds
  attempts : ∀ {nId info}, s.mapInfo.lookup nId = some info → info.nAttempts ≤ attempts
  useless : ∀ {nId info}, s.mapInfo.lookup nId = some info →
    0 ≤ info.uselessness ∧ info.uselessness ≤ scores

theorem Within.mono {a' t' u' : ℕ} (h : s.Within a t u) (ha : a ≤ a') (ht : t ≤ t') (hu : u ≤ u') :
    s.Within a' t' u' where
  ids := h.ids.trans ha
  attempts hl := (h.attempts hl).trans (Int.ofNat_le.mpr ht)
  useless hl := ⟨(h.useless hl).1, (h.useless hl).2.trans (Int.ofNat_le.mpr hu)⟩

/-- An entry is changed to one that is within the counts as well. -/
theorem Within.setInfo (h : s.Within a t u) (nId : ℕ)
    (hattempts : info'.nAttempts ≤ t)
    (huseless : 0 ≤ info'.uselessness ∧ info'.uselessness ≤ u) :
    (s.setInfo nId info').Within a t u where
  ids := h.ids
  attempts hl := by
    rcases of_lookup_setInfo hl with ⟨-, rfl⟩ | ⟨-, hl⟩
    · exact hattempts
    · exact h.attempts hl
  useless hl := by
    rcases of_lookup_setInfo hl with ⟨-, rfl⟩ | ⟨-, hl⟩
    · exact huseless
    · exact h.useless hl

/-- An entry is changed in what is not counted. -/
theorem Within.update (h : s.Within a t u) (hl : s.mapInfo.lookup nId = some info)
    (info' : CAddrInfo) (hattempts : info'.nAttempts = info.nAttempts)
    (huseless : info'.uselessness = info.uselessness) :
    (s.setInfo nId info').Within a t u :=
  h.setInfo nId (hattempts ▸ h.attempts hl) (huseless ▸ h.useless hl)

/-- Only the ids and the entries are looked at. -/
theorem Within.congr (h : s.Within a t u) (hids : s'.nIdCount = s.nIdCount)
    (hinfo : s'.mapInfo = s.mapInfo) : s'.Within a t u where
  ids := hids ▸ h.ids
  attempts hl := h.attempts (hinfo ▸ hl)
  useless hl := h.useless (hinfo ▸ hl)

theorem Within.swapRandom (h : s.Within a t u) {i j : ℕ}
    (hrun : s.swapRandom i j = some s') : s'.Within a t u := by
  unfold CAddrMan.swapRandom at hrun
  by_cases hij : i = j
  · rw [if_pos hij] at hrun
    obtain rfl := Option.some.inj hrun
    exact h
  · rw [if_neg hij] at hrun
    obtain ⟨nId1, -, hrun⟩ := Option.bind_eq_some_iff.mp hrun
    obtain ⟨nId2, -, hrun⟩ := Option.bind_eq_some_iff.mp hrun
    obtain ⟨info1, hl1, hrun⟩ := Option.bind_eq_some_iff.mp hrun
    obtain ⟨info2, hl2, hrun⟩ := Option.bind_eq_some_iff.mp hrun
    obtain rfl := Option.some.inj hrun
    have h1 := h.update hl1 { info1 with nRandomPos := j } rfl rfl
    exact (h1.update hl2 { info2 with nRandomPos := i } rfl rfl).congr rfl rfl

theorem Within.delete (h : s.Within a t u) (hrun : s.delete nId = some s') :
    s'.Within a t u := by
  obtain ⟨info, -, hrun⟩ := Option.bind_eq_some_iff.mp hrun
  obtain ⟨-, -, hrun⟩ := Option.bind_eq_some_iff.mp hrun
  obtain ⟨-, -, hrun⟩ := Option.bind_eq_some_iff.mp hrun
  obtain ⟨-, -, hrun⟩ := Option.bind_eq_some_iff.mp hrun
  obtain ⟨s1, hswap, hrun⟩ := Option.bind_eq_some_iff.mp hrun
  obtain rfl := Option.some.inj hrun
  have h1 := h.swapRandom hswap
  have hold : ∀ {id i}, (s1.mapInfo.erase nId).lookup id = some i →
      s1.mapInfo.lookup id = some i := by
    intro id i hl
    rw [lookup_eraseInfo] at hl
    by_cases hid : id = nId
    · rw [if_pos hid] at hl
      cases hl
    · rwa [if_neg hid] at hl
  exact ⟨h1.ids, fun hl => h1.attempts (hold hl), fun hl => h1.useless (hold hl)⟩

theorem Within.clearNew (h : s.Within a t u) {b : Fin 1024} {p : Fin 64}
    (hrun : s.clearNew b p = some s') : s'.Within a t u := by
  unfold CAddrMan.clearNew at hrun
  cases hslot : s.vvNew b p with
  | none =>
    rw [hslot] at hrun
    obtain rfl := Option.some.inj hrun
    exact h
  | some nIdDelete =>
    rw [hslot] at hrun
    obtain ⟨infoDelete, hl, hrun⟩ := Option.bind_eq_some_iff.mp hrun
    obtain ⟨-, -, hrun⟩ := Option.bind_eq_some_iff.mp hrun
    have h1 : (s.release nIdDelete infoDelete b p).Within a t u :=
      (h.update hl { infoDelete with nRefCount := infoDelete.nRefCount - 1 } rfl rfl).congr rfl rfl
    by_cases hzero : infoDelete.nRefCount - 1 = 0
    · exact h1.delete ((if_pos hzero).symm.trans hrun)
    · obtain rfl := Option.some.inj ((if_neg hzero).symm.trans hrun)
      exact h1

theorem Within.leaveBucket (h : s.Within a t u) {bucket : Fin 1024}
    (hrun : leaveBucket P nId s bucket = some s') : s'.Within a t u := by
  obtain ⟨info, hl, hrun⟩ := Option.bind_eq_some_iff.mp hrun
  by_cases hslot :
      s.vvNew bucket (P.getBucketPosition s.nKey true bucket info.toCService) = some nId
  · obtain rfl := Option.some.inj ((if_pos hslot).symm.trans hrun)
    exact (h.update hl { info with nRefCount := info.nRefCount - 1 } rfl rfl).congr rfl rfl
  · obtain rfl := Option.some.inj ((if_neg hslot).symm.trans hrun)
    exact h

theorem Within.evict (h : s.Within a t u) {kb : Fin 256} {kp : Fin 64}
    (hrun : s.evict P kb kp = some s') : s'.Within a t u := by
  unfold CAddrMan.evict at hrun
  cases hslot : s.vvTried kb kp with
  | none =>
    rw [hslot] at hrun
    obtain rfl := Option.some.inj hrun
    exact h
  | some nIdEvict =>
    rw [hslot] at hrun
    obtain ⟨infoOld, hl, hrun⟩ := Option.bind_eq_some_iff.mp hrun
    obtain ⟨s2, hclear, hrun⟩ := Option.bind_eq_some_iff.mp hrun
    obtain ⟨-, -, hrun⟩ := Option.bind_eq_some_iff.mp hrun
    obtain ⟨info2, hl2, hrun⟩ := Option.bind_eq_some_iff.mp hrun
    obtain rfl := Option.some.inj hrun
    have h1 : (s.untry nIdEvict infoOld kb kp).Within a t u :=
      (h.update hl { infoOld with fInTried := false } rfl rfl).congr rfl rfl
    exact ((h1.clearNew hclear).update hl2 { info2 with nRefCount := 1 } rfl rfl).congr rfl rfl

theorem Within.markTried (h : s.Within a t u) (hrun : s.markTried P nId = some s') :
    s'.Within a t u := by
  unfold CAddrMan.markTried at hrun
  obtain ⟨s1, hleave, hrun⟩ := Option.bind_eq_some_iff.mp hrun
  obtain ⟨info1, -, hrun⟩ := Option.bind_eq_some_iff.mp hrun
  obtain ⟨-, -, hrun⟩ := Option.bind_eq_some_iff.mp hrun
  obtain ⟨s3, hevict, hrun⟩ := Option.bind_eq_some_iff.mp hrun
  obtain ⟨-, -, hrun⟩ := Option.bind_eq_some_iff.mp hrun
  obtain ⟨info3, hl3, hrun⟩ := Option.bind_eq_some_iff.mp hrun
  obtain rfl := Option.some.inj hrun
  have h1 : s1.Within a t u :=
    Runs.foldlM_inv (P := fun s : CAddrMan => s.Within a t u)
      (fun _ _ _ _ hw hstep => hw.leaveBucket hstep) h hleave
  have h2 : ({ s1 with nNew := s1.nNew - 1 } : CAddrMan).Within a t u := h1.congr rfl rfl
  exact ((h2.evict hevict).update hl3 { info3 with fInTried := true } rfl rfl).congr rfl rfl

theorem Within.place (h : s.Within a t u) {source : CNetAddr} {now : ℤ}
    (hrun : s.place P nId source now = some s') : s'.Within a t u := by
  obtain ⟨info, hl, hrun⟩ := Option.bind_eq_some_iff.mp hrun
  dsimp only at hrun
  split at hrun
  · obtain rfl := Option.some.inj hrun
    exact h
  · obtain ⟨insert, -, hrun⟩ := Option.bind_eq_some_iff.mp hrun
    split at hrun
    · obtain ⟨s1, hclear, hrun⟩ := Option.bind_eq_some_iff.mp hrun
      obtain ⟨info1, hl1, hrun⟩ := Option.bind_eq_some_iff.mp hrun
      obtain rfl := Option.some.inj hrun
      exact ((h.clearNew hclear).update hl1 { info1 with nRefCount := info1.nRefCount + 1 }
        rfl rfl).congr rfl rfl
    · split at hrun
      · exact h.delete hrun
      · obtain rfl := Option.some.inj hrun
        exact h

theorem of_find {addr : CNetAddr} (hf : s.find addr = some (nId, info)) :
    s.mapInfo.lookup nId = some info := by
  obtain ⟨id, -, hmap⟩ := Option.bind_eq_some_iff.mp hf
  obtain ⟨i, hi, heq⟩ := Option.map_eq_some_iff.mp hmap
  obtain ⟨rfl, rfl⟩ := Prod.mk.inj heq
  exact hi

theorem Within.good (h : s.Within a t u) {addr : CService} {nTime : ℤ} {rnd : ℕ}
    (hrun : s.good P addr nTime rnd = some s') : s'.Within a t u := by
  unfold CAddrMan.good at hrun
  cases hf : s.find addr.ip with
  | none =>
    rw [hf] at hrun
    obtain rfl := Option.some.inj hrun
    exact h
  | some found =>
    obtain ⟨nId, info⟩ := found
    rw [hf] at hrun
    have huseless := h.useless (of_find hf)
    have h1 : (s.setInfo nId { info with
        nLastSuccess := nTime, nLastTry := nTime, nAttempts := 0 }).Within a t u :=
      h.setInfo nId (Int.natCast_nonneg t) huseless
    dsimp only at hrun
    split at hrun
    · obtain rfl := Option.some.inj hrun
      exact h
    · split at hrun
      · obtain rfl := Option.some.inj hrun
        exact h1
      · split at hrun
        · obtain rfl := Option.some.inj hrun
          exact h1
        · exact h1.markTried hrun

theorem Within.add (h : s.Within a t u) {addr : CAddress} {source : CNetAddr}
    {nTimePenalty now : ℤ} {rnd : ℕ} {fNew : Bool}
    (hrun : s.add P addr source nTimePenalty now rnd = some (fNew, s')) :
    s'.Within (a + 1) t u := by
  have hmore := h.mono (Nat.le_succ a) le_rfl le_rfl
  unfold CAddrMan.add at hrun
  split at hrun
  · obtain ⟨-, rfl⟩ := Prod.mk.inj (Option.some.inj hrun)
    exact hmore
  · cases hf : s.find addr.ip with
    | some found =>
      obtain ⟨nId, info⟩ := found
      rw [hf] at hrun
      have hsame : (updateInfo info addr nTimePenalty now).nAttempts = info.nAttempts ∧
          (updateInfo info addr nTimePenalty now).uselessness = info.uselessness := by
        simp only [updateInfo]
        split_ifs <;> exact ⟨rfl, rfl⟩
      have h1 := hmore.update (of_find hf) _ hsame.1 hsame.2
      dsimp only at hrun
      split at hrun
      · obtain ⟨s1, hplace, hrun⟩ := Option.bind_eq_some_iff.mp hrun
        obtain ⟨-, rfl⟩ := Prod.mk.inj (Option.some.inj hrun)
        exact h1.place hplace
      · obtain ⟨-, rfl⟩ := Prod.mk.inj (Option.some.inj hrun)
        exact h1
    | none =>
      rw [hf] at hrun
      obtain ⟨s1, hcreate, hrun⟩ := Option.bind_eq_some_iff.mp hrun
      obtain ⟨info1, hl1, hrun⟩ := Option.bind_eq_some_iff.mp hrun
      obtain ⟨s2, hplace, hrun⟩ := Option.bind_eq_some_iff.mp hrun
      obtain ⟨-, rfl⟩ := Prod.mk.inj (Option.some.inj hrun)
      -- a new entry has no attempts and is not useless
      have h1 : s1.Within (a + 1) t u := by
        unfold createEntry at hcreate
        split at hcreate
        · cases hcreate
        · obtain rfl := Option.some.inj hcreate
          have hset : (s.setInfo s.nIdCount (newInfo addr source s.vRandom.length)).Within a t u :=
            h.setInfo s.nIdCount (Int.natCast_nonneg t) ⟨le_rfl, Int.natCast_nonneg u⟩
          exact ⟨Nat.succ_le_succ h.ids, hset.attempts, hset.useless⟩
      have h2 := h1.update hl1 { info1 with
        nTime := UInt32.ofInt (max 0 (info1.nTime.toNat - nTimePenalty)) } rfl rfl
      have h3 : ({ s1.setInfo s.nIdCount { info1 with
          nTime := UInt32.ofInt (max 0 (info1.nTime.toNat - nTimePenalty)) } with
          nNew := s1.nNew + 1 } : CAddrMan).Within (a + 1) t u := h2.congr rfl rfl
      exact h3.place hplace

theorem Within.attempt (h : s.Within a t u) {addr : CService} {nTime : ℤ}
    (hrun : s.attempt addr nTime = some s') : s'.Within a (t + 1) u := by
  have hmore := h.mono le_rfl (Nat.le_succ t) le_rfl
  unfold CAddrMan.attempt at hrun
  cases hf : s.find addr.ip with
  | none =>
    rw [hf] at hrun
    obtain rfl := Option.some.inj hrun
    exact hmore
  | some found =>
    obtain ⟨nId, info⟩ := found
    rw [hf] at hrun
    have hl := of_find hf
    have hle := h.attempts hl
    have huseless := h.useless hl
    dsimp only at hrun
    split at hrun
    · obtain rfl := Option.some.inj hrun
      exact hmore
    · split at hrun
      · cases hrun
      · obtain rfl := Option.some.inj hrun
        refine hmore.setInfo nId ?_ huseless
        change info.nAttempts + 1 ≤ ((t + 1 : ℕ) : ℤ)
        omega

theorem Within.connected (h : s.Within a t u) (addr : CService) (nTime : ℤ) :
    (s.connected addr nTime).Within a t u := by
  unfold CAddrMan.connected
  cases hf : s.find addr.ip with
  | none => exact h
  | some found =>
    obtain ⟨nId, info⟩ := found
    dsimp only
    split_ifs
    · exact h
    · exact h.update (of_find hf) _ rfl rfl
    · exact h

theorem Within.increaseUselessness (h : s.Within a t u) {addr : CNetAddr}
    {count : Int32} (hrun : s.increaseUselessness addr count = some s') :
    s'.Within a t (u + count.toInt.toNat) := by
  have hmore := h.mono le_rfl le_rfl (Nat.le_add_right u count.toInt.toNat)
  unfold CAddrMan.increaseUselessness at hrun
  cases hf : s.find addr with
  | none =>
    rw [hf] at hrun
    obtain rfl := Option.some.inj hrun
    exact hmore
  | some found =>
    obtain ⟨nId, info⟩ := found
    rw [hf] at hrun
    have hl := of_find hf
    have hattempts := h.attempts hl
    obtain ⟨hnonneg, hle⟩ := h.useless hl
    dsimp only at hrun
    split at hrun
    · cases hrun
    · obtain rfl := Option.some.inj hrun
      refine hmore.setInfo nId hattempts ?_
      change 0 ≤ max 0 (info.uselessness + count.toInt) ∧
        max 0 (info.uselessness + count.toInt) ≤ ((u + count.toInt.toNat : ℕ) : ℤ)
      omega

theorem Within.getAddrLoop {nNodes : ℕ} {now : ℤ} {rnd : ℕ → ℕ} : ∀ (fuel n : ℕ) {s : CAddrMan}
    {vAddr vAddr' : List CAddress}, s.Within a t u →
    getAddrLoop nNodes now rnd fuel n s vAddr = some (vAddr', s') →
    s'.Within a t u := by
  intro fuel
  induction fuel with
  | zero =>
    intro n s vAddr vAddr' h hrun
    obtain ⟨-, rfl⟩ := Prod.mk.inj (Option.some.inj hrun)
    exact h
  | succ fuel ih =>
    intro n s vAddr vAddr' h hrun
    unfold CAddrMan.getAddrLoop at hrun
    split at hrun
    · obtain ⟨-, rfl⟩ := Prod.mk.inj (Option.some.inj hrun)
      exact h
    · obtain ⟨s1, hswap, hrun⟩ := Option.bind_eq_some_iff.mp hrun
      obtain ⟨nId, -, hrun⟩ := Option.bind_eq_some_iff.mp hrun
      obtain ⟨ai, -, hrun⟩ := Option.bind_eq_some_iff.mp hrun
      exact ih (n + 1) (h.swapRandom hswap) hrun

/-! ## Runs -/

/-- A call, with the clock and the random numbers that it reads. -/
inductive Call where
  | add (addr : CAddress) (source : CNetAddr) (nTimePenalty now : ℤ) (rnd : ℕ)
  | good (addr : CService) (nTime : ℤ) (rnd : ℕ)
  | attempt (addr : CService) (nTime : ℤ)
  | connected (addr : CService) (nTime : ℤ)
  | increaseUselessness (addr : CNetAddr) (count : Int32)
  | getAddr (now : ℤ) (rnd : ℕ → ℕ)

/-- The manager after a call; `none` if an assertion failed or an `int` was too small. -/
def step (P : Placement) (s : CAddrMan) : Call → Option CAddrMan
  | .add addr source nTimePenalty now rnd => (s.add P addr source nTimePenalty now rnd).map Prod.snd
  | .good addr nTime rnd => s.good P addr nTime rnd
  | .attempt addr nTime => s.attempt addr nTime
  | .connected addr nTime => some (s.connected addr nTime)
  | .increaseUselessness addr count => s.increaseUselessness addr count
  | .getAddr now rnd => (s.getAddr now rnd).map Prod.snd

/-- The ids that a call may take. -/
def Call.adds : Call → ℕ
  | .add _ _ _ _ _ => 1
  | _ => 0

/-- The attempts that a call counts. -/
def Call.attempts : Call → ℕ
  | .attempt _ _ => 1
  | _ => 0

/-- The uselessness that a call adds. -/
def Call.scores : Call → ℕ
  | .increaseUselessness _ count => count.toInt.toNat
  | _ => 0

/-- The calls are too few for an `int` to overflow. -/
structure Few (calls : List Call) : Prop where
  adds : (calls.map Call.adds).sum < 2 ^ 31
  attempts : (calls.map Call.attempts).sum < 2 ^ 31
  scores : (calls.map Call.scores).sum < 2 ^ 31

/-- What a call adds to the counts. -/
theorem Within.step (h : s.Within a t u) {call : Call}
    (hrun : CAddrMan.step P s call = some s') :
    s'.Within (a + call.adds) (t + call.attempts) (u + call.scores) := by
  cases call with
  | add addr source nTimePenalty now rnd =>
    change (s.add P addr source nTimePenalty now rnd).map Prod.snd = some s' at hrun
    obtain ⟨⟨fNew, s1⟩, hadd, rfl⟩ := Option.map_eq_some_iff.mp hrun
    exact h.add hadd
  | good addr nTime rnd =>
    change s.good P addr nTime rnd = some s' at hrun
    exact h.good hrun
  | attempt addr nTime =>
    change s.attempt addr nTime = some s' at hrun
    exact h.attempt hrun
  | connected addr nTime =>
    obtain rfl := Option.some.inj hrun
    exact h.connected addr nTime
  | increaseUselessness addr count =>
    change s.increaseUselessness addr count = some s' at hrun
    exact h.increaseUselessness hrun
  | getAddr now rnd =>
    change (s.getAddr now rnd).map Prod.snd = some s' at hrun
    obtain ⟨⟨vAddr, s1⟩, hget, rfl⟩ := Option.map_eq_some_iff.mp hrun
    exact h.getAddrLoop _ _ hget

/-- One call that the counts leave room for. -/
theorem Consistent.step (h : s.Consistent P ∅ 0) (hw : s.Within a t u) (call : Call)
    (hadds : a + call.adds < 2 ^ 31) (hattempts : t + call.attempts < 2 ^ 31)
    (hscores : u + call.scores < 2 ^ 31) :
    ∃ s', CAddrMan.step P s call = some s' ∧ s'.Consistent P ∅ 0 := by
  cases call with
  | add addr source nTimePenalty now rnd =>
    obtain ⟨fNew, s', hrun, hs'⟩ := add_spec h
      (Nat.lt_of_le_of_lt (Nat.succ_le_succ hw.ids) hadds) addr source nTimePenalty now rnd
    exact ⟨s', congrArg (Option.map Prod.snd) hrun, hs'⟩
  | good addr nTime rnd =>
    obtain ⟨s', hrun, hs', -⟩ := good_spec h addr nTime rnd
    exact ⟨s', hrun, hs'⟩
  | attempt addr nTime =>
    refine attempt_spec h addr nTime fun {id i} hl => ?_
    have hle := hw.attempts hl
    simp only [Call.attempts] at hattempts
    omega
  | connected addr nTime => exact ⟨_, rfl, connected_spec h addr nTime⟩
  | increaseUselessness addr count =>
    refine increaseUselessness_spec h addr count fun {id i} hl => ?_
    obtain ⟨hnonneg, hle⟩ := hw.useless hl
    simp only [Call.scores] at hscores
    omega
  | getAddr now rnd =>
    obtain ⟨vAddr, s', hrun, hs', -⟩ := getAddr_spec h now rnd
    exact ⟨s', congrArg (Option.map Prod.snd) hrun, hs'⟩

/-- An empty manager has no entries. -/
theorem lookup_create (nKey : Uint256) : (create nKey).mapInfo.lookup nId ≠ some info := by
  intro hl
  cases (AList.lookup_empty nId).symm.trans hl

/-- An empty manager is consistent. -/
theorem consistent_create (P : Placement) (nKey : Uint256) :
    (create nKey).Consistent P ∅ 0 := by
  refine ⟨⟨fun hl => absurd hl (lookup_create nKey), fun hl => absurd hl (lookup_create nKey),
    fun {a nId} hl => ?_, fun hl => absurd hl (lookup_create nKey), fun hl => ?_⟩,
    ⟨fun ht => ?_, fun hl => absurd hl (lookup_create nKey),
    fun ht => ?_, fun hl => absurd hl (lookup_create nKey)⟩, rfl, rfl⟩
  · cases (AList.lookup_empty a).symm.trans hl
  all_goals cases ‹_ = some _›

theorem within_create (nKey : Uint256) : (create nKey).Within 0 0 0 where
  ids := le_rfl
  attempts hl := absurd hl (lookup_create nKey)
  useless hl := absurd hl (lookup_create nKey)

/-- **Runs.**  The counts of the calls so far and of those that follow leave room for each call. -/
theorem Consistent.run (P : Placement) : ∀ (calls : List Call) {s : CAddrMan}
    {a t u : ℕ}, s.Consistent P ∅ 0 → s.Within a t u →
    a + (calls.map Call.adds).sum < 2 ^ 31 → t + (calls.map Call.attempts).sum < 2 ^ 31 →
    u + (calls.map Call.scores).sum < 2 ^ 31 →
    Runs.Always (CAddrMan.step P) (fun s => s.Consistent P ∅ 0) s calls := by
  intro calls
  induction calls with
  | nil =>
    intro s a t u h _ _ _ _
    exact h
  | cons call calls ih =>
    intro s a t u h hw hadds hattempts hscores
    rw [List.map_cons, List.sum_cons] at hadds hattempts hscores
    obtain ⟨s', hrun, hs'⟩ := h.step hw call (by omega) (by omega) (by omega)
    exact ⟨h, s', hrun, ih hs' (hw.step hrun) (by omega) (by omega) (by omega)⟩

/-- What holds of consistent managers holds after every call of every run. -/
theorem always_of_consistent (P : Placement) {Q : CAddrMan → Prop}
    (hQ : ∀ s : CAddrMan, s.Consistent P ∅ 0 → Q s) (nKey : Uint256) {calls : List Call}
    (hcalls : Few calls) : Runs.Always (CAddrMan.step P) Q (create nKey) calls :=
  (Consistent.run P calls (consistent_create P nKey) (within_create nKey)
    ((Nat.zero_add _).trans_lt hcalls.adds) ((Nat.zero_add _).trans_lt hcalls.attempts)
    ((Nat.zero_add _).trans_lt hcalls.scores)).mono hQ

/-- **Nothing fails.**  Whatever is added, tried, looked up or sent, by calls that are too few to
overflow an `int`, the tables agree after each call: an entry is found by its address and its random
position, it is in one place of the tried table or in one to eight of the new one, where its hashes put
it, and it is counted once. -/
theorem always_tablesAgree (P : Placement) (nKey : Uint256) {calls : List Call}
    (hcalls : Few calls) :
    Runs.Always (CAddrMan.step P) (fun s => s.Consistent P ∅ 0) (create nKey) calls :=
  always_of_consistent P (fun _ h => h) nKey hcalls

/-- The last bits of an address decide where it goes in the only bucket of each table. -/
def lastBits : Placement where
  getTriedBucket := fun _ _ => ⟨0, by decide⟩
  getNewBucket := fun _ _ _ => ⟨0, by decide⟩
  getBucketPosition := fun _ _ _ addr => ⟨addr.ip.toNat % 64, Nat.mod_lt _ (by decide)⟩
  isRoutable := fun _ => true

def sampleAddress (n : ℕ) : CAddress := ⟨⟨BitVec.ofNat 128 n, 8333⟩, 1, 1000⟩

/-- Five addresses, of which the first one is tried; the last one has the same place. -/
def sampleCalls : List Call :=
  [.add (sampleAddress 1) 7 0 1000 0, .good (sampleAddress 1).toCService 1000 3,
    .add (sampleAddress 2) 7 0 1000 0, .add (sampleAddress 3) 7 0 1000 0,
    .add (sampleAddress 4) 7 0 1000 0, .add (sampleAddress 65) 7 0 1000 0,
    .attempt (sampleAddress 65).toCService 1001,
    .increaseUselessness (sampleAddress 65).ip 2, .getAddr 1002 id]

theorem few_sampleCalls : Few sampleCalls := ⟨by decide, by decide, by decide⟩

theorem always_tablesAgree_sampleCalls :
    ∃ s, sampleCalls.foldlM (CAddrMan.step lastBits) (create 0) = some s ∧
      s.Consistent lastBits ∅ 0 :=
  (always_tablesAgree lastBits 0 few_sampleCalls).final

/-- **`Good` is final.**  After every run, an address that is known and was good is in the tried table:
the loop over the new buckets, which may begin anywhere, always finds one. -/
theorem always_goodTried (P : Placement) (nKey : Uint256) {calls : List Call}
    (hcalls : Few calls) :
    Runs.Always (CAddrMan.step P) (fun s => ∀ addr nTime rnd nId info,
      s.find addr.ip = some (nId, info) → info.toCService = addr →
      ∃ s' info' b p, s.good P addr nTime rnd = some s' ∧ s'.mapInfo.lookup nId = some info' ∧
        info'.fInTried = true ∧ s'.vvTried b p = some nId ∧ slots s'.vvNew nId = ∅)
      (create nKey) calls := by
  refine always_of_consistent P (fun s h addr nTime rnd nId info hf haddr => ?_) nKey hcalls
  obtain ⟨s', hrun, hs', htried⟩ := good_spec h addr nTime rnd
  obtain ⟨info', hl', -, hin'⟩ := htried nId info hf haddr
  obtain ⟨-, b, p, hplace⟩ := hs'.filed.tried_of_info hl' hin'
  exact ⟨s', info', b, p, hrun, hl', hin', hplace, hs'.filed.slots_tried hl' hin'⟩

/-- The address that was attempted last is good: it takes the place of the first one. -/
theorem always_goodTried_sampleCalls :
    ∃ s, sampleCalls.foldlM (CAddrMan.step lastBits) (create 0) = some s ∧
      ∃ s' info' b p, s.good lastBits (sampleAddress 65).toCService 1003 5 = some s' ∧
        s'.mapInfo.lookup 4 = some info' ∧ info'.fInTried = true ∧ s'.vvTried b p = some 4 ∧
        slots s'.vvNew 4 = ∅ := by
  obtain ⟨s, hrun, hgood⟩ := (always_goodTried lastBits 0 few_sampleCalls).final
  refine ⟨s, hrun, ?_⟩
  have hknown : (sampleCalls.foldlM (CAddrMan.step lastBits) (create 0)).map (fun s =>
      (s.find (sampleAddress 65).ip).map fun found => (found.1, found.2.toCService))
        = some (some (4, (sampleAddress 65).toCService)) := by
    decide +kernel
  rw [hrun] at hknown
  obtain ⟨⟨nId, info⟩, hfind, heq⟩ := Option.map_eq_some_iff.mp (Option.some.inj hknown)
  obtain ⟨rfl, haddr⟩ := Prod.mk.inj heq
  exact hgood _ 1003 5 4 info hfind haddr

/-- **What other nodes are told.**  After every run, `GetAddr` gives at most 23 of 100 entries and at
most 2500, no network address twice, and only addresses of entries that are not terrible. -/
theorem always_getAddr (P : Placement) (nKey : Uint256) {calls : List Call}
    (hcalls : Few calls) :
    Runs.Always (CAddrMan.step P) (fun s => ∀ now rnd, ∃ vAddr s',
      s.getAddr now rnd = some (vAddr, s') ∧
      vAddr.length ≤ min (23 * s.vRandom.length / 100) 2500 ∧
      (vAddr.map fun addr => addr.ip).Nodup ∧ ∀ addr ∈ vAddr, s.Offers now addr)
      (create nKey) calls := by
  refine always_of_consistent P (fun s h now rnd => ?_) nKey hcalls
  obtain ⟨vAddr, s', hrun, -, hrest⟩ := getAddr_spec h now rnd
  exact ⟨vAddr, s', hrun, hrest⟩

/-- One of the five addresses is given. -/
theorem always_getAddr_sampleCalls :
    ∃ s, sampleCalls.foldlM (CAddrMan.step lastBits) (create 0) = some s ∧
      ∃ vAddr s', s.getAddr 1002 id = some (vAddr, s') ∧ vAddr.length ≤ 1 ∧
        ∀ addr ∈ vAddr, s.Offers 1002 addr := by
  obtain ⟨s, hrun, hget⟩ := (always_getAddr lastBits 0 few_sampleCalls).final
  refine ⟨s, hrun, ?_⟩
  have hfive : (sampleCalls.foldlM (CAddrMan.step lastBits) (create 0)).map
      (fun s => s.vRandom.length) = some 5 := by
    decide +kernel
  rw [hrun] at hfive
  obtain ⟨vAddr, s', hrun', hlen, -, hoffers⟩ := hget 1002 id
  have hlength : s.vRandom.length = 5 := Option.some.inj hfive
  rw [hlength] at hlen
  exact ⟨vAddr, s', hrun', hlen, hoffers⟩

end CAddrMan

end AddrMan
