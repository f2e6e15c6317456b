import Mathlib.Data.List.Permutation
import Floresta.Wire.ChainSelector

/-!
# CutAndChoose — whom the search blames

Two peers, one of them honest, answer every request.  The search halves its step until it is below
five blocks and scans from where it landed.  It asks for the block it landed on a second time, so
that the block next to it is not looked at, and a fork point at the genesis block counts as none:
which peer it blames depends on where it lands.
-/

namespace Floresta.Wire

open Prog Fallible

variable {answer1 answer2 : BlockHash → Bytes}

/-! ## The search without the network -/

/-- The block on which the halving lands, for the heights at which the answers differ. -/
def landing (differ : Nat → Bool) (height interval : Nat) : Nat :=
  if interval < 5 then height
  else landing differ (if differ height then height - interval / 2 else height + interval / 2)
    (interval / 2)
  termination_by interval
  decreasing_by omega

/-- The scan from the block `land` stops at `fork`.  Upwards it begins two blocks above and ends
below the first block with different answers; downwards it begins two blocks below and ends at the
first block above genesis with equal answers. -/
def ScanStops (differ : Nat → Bool) (tip land fork : Nat) : Prop :=
  if differ land then
    1 ≤ fork ∧ fork + 2 ≤ land ∧ differ fork = false ∧
      ∀ i, fork < i → i + 2 ≤ land → differ i = true
  else
    land + 1 ≤ fork ∧ fork + 1 ≤ tip ∧ differ (fork + 1) = true ∧
      ∀ i, land + 2 ≤ i → i ≤ fork → differ i = false

theorem ScanStops.lt {differ : Nat → Bool} {tip land fork : Nat}
    (h : ScanStops differ tip land fork) (hle : land ≤ tip) : fork + 1 ≤ tip := by
  unfold ScanStops at h
  split at h
  · omega
  · exact h.2.1

theorem ScanStops.unique {differ : Nat → Bool} {tip land fork fork' : Nat}
    (h : ScanStops differ tip land fork) (h' : ScanStops differ tip land fork') : fork = fork' := by
  unfold ScanStops at h h'
  by_cases hland : differ land = true
  · rw [if_pos hland] at h h'
    rcases h with ⟨-, hle, hsame, hmore⟩
    rcases h' with ⟨-, hle', hsame', hmore'⟩
    rcases Nat.lt_trichotomy fork fork' with hlt | heq | hgt
    · rw [hmore fork' hlt hle'] at hsame'
      cases hsame'
    · exact heq
    · rw [hmore' fork hgt hle] at hsame
      cases hsame
  · rw [if_neg hland] at h h'
    rcases h with ⟨hlow, -, hmore, hsame⟩
    rcases h' with ⟨hlow', -, hmore', hsame'⟩
    rcases Nat.lt_trichotomy fork fork' with hlt | heq | hgt
    · rw [hsame' (fork + 1) (by omega) hlt] at hmore
      cases hmore
    · exact heq
    · rw [hsame (fork' + 1) (by omega) hgt] at hmore'
      cases hmore'

theorem moveHeight_newer {height step : Nat} (h : height + step < 2 ^ 32) :
    Returns (moveHeight true height step) (.ok (height + step)) := by
  change Returns (addU32 height step) _
  unfold addU32
  rw [if_pos h]
  exact Returns.pure _

theorem subU32_returns {a b : Nat} (h : b ≤ a) : Returns (subU32 a b) (.ok (a - b)) := by
  unfold subU32
  rw [if_pos h]
  exact Returns.pure _

theorem moveHeight_older {height step : Nat} (h : step ≤ height) :
    Returns (moveHeight false height step) (.ok (height - step)) := subU32_returns h

theorem subU32_panics {a b : Nat} (h : a < b) : Returns (subU32 a b) (.error .panic) := by
  unfold subU32
  rw [if_neg (Nat.not_le.mpr h)]
  exact Returns.fail _

/-! ## Two peers -/

/-- Two peers that answer every request with a function of the block, one of them honest. -/
structure Dispute (X : Context) where
  peer1 : PeerId
  peer2 : PeerId
  distinct : peer1 ≠ peer2
  tip : Nat
  tip_pos : 1 ≤ tip
  tip_lt : tip < 2 ^ 32
  hash : Nat → BlockHash
  best : X.bestBlock = (tip, hash tip)
  known : ∀ i ≤ tip, X.getBlockHash i = .ok (hash i)
  unknown : ∀ i, tip < i → X.getBlockHash i = .error .blockNotPresent
  answer1 : BlockHash → Bytes
  answer2 : BlockHash → Bytes
  /-- both answers arrive, in any order -/
  replies : ∀ sent block height,
    (X.receive (sent ++ [(peer1, .getUtreexoState block height),
      (peer2, .getUtreexoState block height)])).Perm
        [some (peer1, .utreexoState (answer1 block)), some (peer2, .utreexoState (answer2 block))]
  /-- what the first peer serves for a block -/
  served : Nat → Except Fault (InflightBlock X.rustreexo)
  serves : ∀ i ≤ tip, Returns (getBlockAndProof X peer1 (hash i)) (served i)
  /-- the accumulators of the best chain -/
  truth : Nat → X.rustreexo.Stump
  honestFirst : Bool
  /-- the honest peer answers with them -/
  honest : ∀ i ≤ tip,
    parseAcc X (if honestFirst then answer1 (hash i) else answer2 (hash i)) = .ok (truth i)
  /-- and serves blocks with their proofs -/
  replay : honestFirst = true → ∀ i < tip, ∃ inflight, served (i + 1) = .ok inflight ∧
    updateAcc X (truth i) inflight.block inflight.auxData.proof inflight.auxData.leafData (i + 1) =
      .ok (truth (i + 1))
  /-- the answers differ at the tip -/
  disagree : answer1 (hash tip) ≠ answer2 (hash tip)

namespace Dispute

variable {X : Context} (D : Dispute X)

def differ (i : Nat) : Bool := D.answer1 (D.hash i) ≠ D.answer2 (D.hash i)

theorem differ_tip : D.differ D.tip = true := decide_eq_true D.disagree

theorem same_eq (i : Nat) :
    decide (D.answer1 (D.hash i) = D.answer2 (D.hash i)) = !D.differ i := by
  simp [differ]

def liar : PeerId := if D.honestFirst then D.peer2 else D.peer1

/-- At the fork point, the replay of the next block tells that the dishonest peer lies. -/
def Exposed (fork : Nat) : Prop :=
  if D.honestFirst then ∃ acc, parseAcc X (D.answer2 (D.hash (fork + 1))) = .ok acc
  else ∃ agreed inflight acc, parseAcc X (D.answer1 (D.hash fork)) = .ok agreed ∧
    D.served (fork + 1) = .ok inflight ∧
    updateAcc X agreed inflight.block inflight.auxData.proof inflight.auxData.leafData (fork + 1) =
      .ok (D.truth (fork + 1)) ∧
    parseAcc X (D.answer1 (D.hash (fork + 1))) = .ok acc ∧ acc ≠ D.truth (fork + 1)

/-! ## Requests -/

theorem grab_returns (block : BlockHash) (height : Nat) :
    Returns (grabBothPeersVersion X D.peer1 D.peer2 block height)
      (.ok (some (D.answer1 block), some (D.answer2 block))) := by
  intro s
  have hperm := D.replies s.sent block height
  have hother : D.peer2 ≠ D.peer1 := D.distinct.symm
  unfold grabBothPeersVersion received sendToPeer
  change Except.ok (((X.receive (s.sent ++ [_] ++ [_])).take 2).foldl _ _) = _
  rw [List.append_assoc, List.singleton_append]
  rcases List.perm_pair.mp hperm with heq | heq
  · rw [heq]
    simp [hother]
  · rw [heq]
    simp [hother]

theorem getBlockHash_returns {i : Nat} (hi : i ≤ D.tip) :
    Returns (chain (X.getBlockHash i)) (.ok (D.hash i)) := by
  unfold chain
  rw [D.known i hi]
  exact Returns.lift _

theorem unwrap_returns {i : Nat} (hi : i ≤ D.tip) :
    Returns (unwrap (X.getBlockHash i)) (.ok (D.hash i)) := by
  unfold unwrap
  rw [D.known i hi]
  exact Returns.lift _

/-! ## Halving -/

theorem narrow_done {height prevHeight : Nat} {hash : BlockHash}
    (h : max height prevHeight - min height prevHeight < 5) :
    Returns (narrow X D.peer1 D.peer2 (height, hash, prevHeight))
      (.ok (.inr (.inr (height, hash)))) := by
  refine (D.grab_returns hash height).bind ?_
  dsimp only
  rw [if_pos h]
  exact Returns.pure _

theorem narrow_next {height prevHeight next : Nat}
    (h : ¬ max height prevHeight - min height prevHeight < 5)
    (hnext : Returns (moveHeight (!D.differ height) height
      ((max height prevHeight - min height prevHeight) / 2)) (.ok next)) (hle : next ≤ D.tip) :
    Returns (narrow X D.peer1 D.peer2 (height, D.hash height, prevHeight))
      (.ok (.inl (next, D.hash next, height))) := by
  refine (D.grab_returns (D.hash height) height).bind ?_
  dsimp only
  rw [if_neg h, D.same_eq]
  refine hnext.bind ?_
  exact (D.unwrap_returns hle).bind (Returns.pure _)

theorem narrow_lands {interval height prevHeight fuel : Nat}
    (hinterval : max height prevHeight - min height prevHeight = interval)
    (hlow : interval ≤ height)
    (hhigh : height + interval ≤ D.tip ∨ height = D.tip) (hfuel : interval < fuel) :
    Returns (loop .diverged (narrow X D.peer1 D.peer2) fuel (height, D.hash height, prevHeight))
        (.ok (.inr (landing D.differ height interval, D.hash (landing D.differ height interval)))) ∧
      (1 ≤ interval → 1 ≤ landing D.differ height interval) ∧
      landing D.differ height interval ≤ D.tip := by
  induction interval using Nat.strong_induction_on generalizing height prevHeight fuel with
  | _ interval ih =>
    rcases fuel with _ | fuel
    · exact absurd hfuel (Nat.not_lt_zero _)
    rw [landing]
    by_cases hsmall : interval < 5
    · rw [if_pos hsmall]
      refine ⟨(D.narrow_done (hinterval ▸ hsmall)).loop_done, ?_, ?_⟩
      · exact fun hpos => Nat.le_trans hpos hlow
      · rcases hhigh with hhigh | rfl
        · exact Nat.le_trans (Nat.le_add_right ..) hhigh
        · exact Nat.le_refl _
    · rw [if_neg hsmall]
      have hlarge : ¬ max height prevHeight - min height prevHeight < 5 := hinterval ▸ hsmall
      by_cases hdiffer : D.differ height = true
      · -- the answers differ: the next block is below
        rw [if_pos hdiffer]
        rcases @ih (interval / 2) (by omega) (height - interval / 2) height fuel (by omega)
          (by omega) (.inl (by omega)) (by omega) with ⟨hloop, hpos, hle⟩
        refine ⟨?_, fun _ => hpos (by omega), hle⟩
        refine (D.narrow_next hlarge ?_ (by omega)).loop_next hloop
        rw [hdiffer, hinterval]
        exact moveHeight_older (by omega)
      · -- they agree, so that this is not the tip: the next block is above
        have hsame : D.differ height = false := Bool.eq_false_iff.mpr hdiffer
        have htip : height + interval ≤ D.tip := by
          rcases hhigh with hhigh | rfl
          · exact hhigh
          · exact absurd D.differ_tip hdiffer
        have hlt := D.tip_lt
        rw [if_neg hdiffer]
        rcases @ih (interval / 2) (by omega) (height + interval / 2) height fuel (by omega)
          (by omega) (.inl (by omega)) (by omega) with ⟨hloop, hpos, hle⟩
        refine ⟨?_, fun _ => hpos (by omega), hle⟩
        refine (D.narrow_next hlarge ?_ (by omega)).loop_next hloop
        rw [hsame, hinterval]
        exact moveHeight_newer (by omega)

/-! ## Scanning

A round asks for one block, and its height is another one in the first round only. -/

theorem scan_same_eq (i : Nat) :
    decide (some (D.answer1 (D.hash i)) = some (D.answer2 (D.hash i))) = !D.differ i := by
  simp [differ]

theorem scan_done {agree : Bool} {height i fork : Nat}
    (hfork : Returns (forkPoint agree (!D.differ i) height) (.ok fork)) (hpos : fork ≠ 0) :
    Returns (scan X agree D.peer1 D.peer2 (height, D.hash i)) (.ok (.inr fork)) := by
  refine (D.grab_returns (D.hash i) height).bind ?_
  dsimp only
  rw [D.scan_same_eq]
  refine hfork.bind ?_
  rw [if_pos hpos]
  exact Returns.pure _

theorem scan_next {agree : Bool} {height i next : Nat}
    (hfork : Returns (forkPoint agree (!D.differ i) height) (.ok 0))
    (hnext : Returns (moveHeight agree height 1) (.ok next)) (hle : next ≤ D.tip) :
    Returns (scan X agree D.peer1 D.peer2 (height, D.hash i)) (.ok (.inl (next, D.hash next))) := by
  refine (D.grab_returns (D.hash i) height).bind ?_
  dsimp only
  rw [D.scan_same_eq]
  refine hfork.bind ?_
  rw [if_neg (not_not.mpr rfl)]
  refine hnext.bind ?_
  exact (D.getBlockHash_returns hle).bind (Returns.pure _)

theorem scan_underflow {i : Nat} (hfork : Returns (forkPoint false (!D.differ i) 0) (.ok 0)) :
    Returns (scan X false D.peer1 D.peer2 (0, D.hash i)) (.error .panic) := by
  refine (D.grab_returns (D.hash i) 0).bind ?_
  dsimp only
  rw [D.scan_same_eq]
  refine hfork.bind ?_
  rw [if_neg (not_not.mpr rfl)]
  exact (subU32_panics Nat.zero_lt_one).bind_error

theorem scan_beyond {i height : Nat} (hsame : D.differ i = false) (hheight : D.tip ≤ height) :
    ∃ fault, Returns (scan X true D.peer1 D.peer2 (height, D.hash i)) (.error fault) := by
  have hround : ∀ {fault}, Returns (moveHeight true height 1 >>= fun next =>
      chain (X.getBlockHash next) >>= fun hash => pure (Sum.inl (next, hash)))
        (.error fault : Except Fault (Nat × BlockHash ⊕ Nat)) →
      Returns (scan X true D.peer1 D.peer2 (height, D.hash i)) (.error fault) := by
    intro fault h
    refine (D.grab_returns (D.hash i) height).bind ?_
    dsimp only
    rw [D.scan_same_eq, hsame]
    exact h
  by_cases hmax : height + 1 < 2 ^ 32
  · refine ⟨.error (.blockchain .blockNotPresent), hround ((moveHeight_newer hmax).bind ?_)⟩
    refine Returns.bind_error ?_
    unfold chain
    rw [D.unknown (height + 1) (Nat.lt_succ_of_le hheight)]
    exact Returns.lift _
  · refine ⟨.panic, hround (Returns.bind_error ?_)⟩
    change Returns (addU32 height 1) _
    unfold addU32
    rw [if_neg hmax]
    exact Returns.fail _

theorem scan_up {height fork fuel : Nat} (hpos : 1 ≤ fork) (hle : height ≤ fork + 1)
    (htip : fork + 1 ≤ D.tip) (hdiffer : D.differ (fork + 1) = true)
    (hsame : ∀ i, height ≤ i → i ≤ fork → D.differ i = false) (hfuel : fork + 1 < height + fuel) :
    Returns (loop .diverged (scan X true D.peer1 D.peer2) fuel (height, D.hash height))
      (.ok fork) := by
  induction fuel generalizing height with
  | zero => omega
  | succ fuel ih =>
    by_cases hend : height = fork + 1
    · subst hend
      refine (D.scan_done ?_ (Nat.ne_of_gt hpos)).loop_done
      rw [hdiffer]
      exact subU32_returns (Nat.le_add_left ..)
    · have hagree := hsame height (Nat.le_refl _) (by omega)
      refine (D.scan_next ?_ (moveHeight_newer ?_) ?_).loop_next ?_
      · rw [hagree]
        exact Returns.pure _
      · have := D.tip_lt
        omega
      · omega
      · exact ih (by omega) (fun i hi => hsame i (by omega)) (by omega)

theorem scan_down {height fork fuel : Nat} (hpos : 1 ≤ fork) (hle : fork ≤ height)
    (htip : height ≤ D.tip) (hsame : D.differ fork = false)
    (hdiffer : ∀ i, fork < i → i ≤ height → D.differ i = true) (hfuel : height < fork + fuel) :
    Returns (loop .diverged (scan X false D.peer1 D.peer2) fuel (height, D.hash height))
      (.ok fork) := by
  induction fuel generalizing height with
  | zero => omega
  | succ fuel ih =>
    by_cases hend : height = fork
    · subst hend
      refine (D.scan_done ?_ (Nat.ne_of_gt hpos)).loop_done
      rw [hsame]
      exact Returns.pure _
    · have hnot := hdiffer height (by omega) (Nat.le_refl _)
      refine (D.scan_next ?_ (moveHeight_older (by omega)) (by omega)).loop_next ?_
      · rw [hnot]
        exact Returns.pure _
      · exact ih (by omega) (by omega) (fun i hi hi' => hdiffer i hi (by omega)) (by omega)

theorem scan_panics {height fuel : Nat} (htip : height ≤ D.tip)
    (hdiffer : ∀ i, 1 ≤ i → i ≤ height → D.differ i = true) (hfuel : height < fuel) :
    Returns (loop .diverged (scan X false D.peer1 D.peer2) fuel (height, D.hash height))
      (.error .panic) := by
  induction fuel generalizing height with
  | zero => omega
  | succ fuel ih =>
    rcases height with _ | height
    · refine (D.scan_underflow ?_).loop_error
      cases D.differ 0 with
      | true => exact Returns.pure _
      | false => exact Returns.pure _
    · have hnot := hdiffer (height + 1) (by omega) (Nat.le_refl _)
      refine (D.scan_next ?_ (moveHeight_older (by omega)) (by omega)).loop_next ?_
      · rw [hnot]
        exact Returns.pure _
      · exact ih (by omega) (fun i hi hi' => hdiffer i hi (by omega)) (by omega)

theorem scanFrom_stops {land fork : Nat} (hle : land ≤ D.tip)
    (h : ScanStops D.differ D.tip land fork) :
    Returns (scanFrom X (!D.differ land) D.peer1 D.peer2 land (D.hash land)) (.ok fork) := by
  have hlt := D.tip_lt
  unfold scanFrom
  rw [D.best]
  unfold ScanStops at h
  by_cases hdiffer : D.differ land = true
  · rw [if_pos hdiffer] at h
    rcases h with ⟨hpos, hfork, hsame, hmore⟩
    rw [hdiffer]
    refine (moveHeight_older (by omega)).bind ?_
    -- the block landed on is asked for again, and the scan goes on two blocks below it
    refine (D.scan_next (i := land) ?_ (moveHeight_older (by omega)) (by omega)).loop_next ?_
    · rw [hdiffer]
      exact Returns.pure _
    · exact D.scan_down hpos (by omega) (by omega) hsame (fun i hi hi' => hmore i hi (by omega))
        (by omega)
  · rw [if_neg hdiffer] at h
    rcases h with ⟨hpos, hfork, hmore, hsame⟩
    rw [Bool.eq_false_iff.mpr hdiffer]
    refine (moveHeight_newer (by omega)).bind ?_
    refine (D.scan_next (i := land) ?_ (moveHeight_newer (by omega)) (by omega)).loop_next ?_
    · rw [Bool.eq_false_iff.mpr hdiffer]
      exact Returns.pure _
    · exact D.scan_up (by omega) (by omega) hfork hmore (fun i hi hi' => hsame i (by omega) hi')
        (by omega)

theorem scanFrom_fails {land : Nat} (hpos : 1 ≤ land) (hle : land ≤ D.tip)
    (h : ¬ ∃ fork, ScanStops D.differ D.tip land fork) :
    ∃ fault, Returns (scanFrom X (!D.differ land) D.peer1 D.peer2 land (D.hash land))
      (.error fault) := by
  have hlt := D.tip_lt
  unfold scanFrom
  rw [D.best]
  by_cases hdiffer : D.differ land = true
  · -- no block below but genesis has equal answers
    have hall : ∀ i, 1 ≤ i → i + 2 ≤ land → D.differ i = true := by
      intro i hi
      induction hn : land - i using Nat.strong_induction_on generalizing i with
      | _ n ih =>
        intro hland
        by_contra hnot
        refine h ⟨i, ?_⟩
        unfold ScanStops
        rw [if_pos hdiffer]
        refine ⟨hi, hland, Bool.eq_false_iff.mpr hnot, fun j hj hj' => ?_⟩
        exact ih (land - j) (by omega) j (by omega) rfl hj'
    rw [hdiffer]
    refine ⟨.panic, (moveHeight_older hpos).bind ?_⟩
    by_cases hone : land = 1
    · subst hone
      refine (D.scan_underflow ?_).loop_error
      rw [hdiffer]
      exact Returns.pure _
    · refine (D.scan_next (i := land) ?_ (moveHeight_older (by omega)) (by omega)).loop_next ?_
      · rw [hdiffer]
        exact Returns.pure _
      · exact D.scan_panics (by omega) (fun i hi hi' => hall i hi (by omega)) (by omega)
  · -- the answers differ at the tip, so that the scan upwards fails only if it begins above it
    have hsame : D.differ land = false := Bool.eq_false_iff.mpr hdiffer
    have hland : land < D.tip := by
      refine Nat.lt_of_le_of_ne hle ?_
      rintro rfl
      exact hdiffer D.differ_tip
    have habove : D.tip ≤ land + 1 := by
      by_contra hnot
      have hexists : ∃ k, D.differ (land + 2 + k) = true :=
        ⟨D.tip - (land + 2), by
          rw [show land + 2 + (D.tip - (land + 2)) = D.tip by omega]
          exact D.differ_tip⟩
      have hfirst := Nat.find_spec hexists
      have hmin : Nat.find hexists ≤ D.tip - (land + 2) := Nat.find_min' hexists (by
        rw [show land + 2 + (D.tip - (land + 2)) = D.tip by omega]
        exact D.differ_tip)
      refine h ⟨land + 1 + Nat.find hexists, ?_⟩
      unfold ScanStops
      rw [if_neg hdiffer]
      refine ⟨by omega, by omega, ?_, fun i hi hi' => ?_⟩
      · rw [show land + 1 + Nat.find hexists + 1 = land + 2 + Nat.find hexists by omega]
        exact hfirst
      · have hlow := Nat.find_min hexists (m := i - (land + 2)) (by omega)
        rw [show land + 2 + (i - (land + 2)) = i by omega] at hlow
        exact Bool.eq_false_iff.mpr hlow
    rw [hsame]
    rcases D.scan_beyond hsame habove with ⟨fault, hfault⟩
    exact ⟨fault, (moveHeight_newer (by omega)).bind hfault.loop_error⟩

/-! ## The judgement -/

/-- What comes out if the scan stops at `fork`. -/
def verdict (fork : Nat) : Except Fault PeerCheck := do
  let agreed ← (parseAcc X (D.answer1 (D.hash fork))).mapError .error
  match D.served (fork + 1) with
  | .error (.error .peerTimeout) => .ok (.unresponsivePeer D.peer1)
  | .error fault => .error fault
  | .ok inflight => do
      let acc ← (updateAcc X agreed inflight.block inflight.auxData.proof inflight.auxData.leafData
        (fork + 1)).mapError fun e => .error (.blockchain e)
      let acc1 ← (parseAcc X (D.answer1 (D.hash (fork + 1)))).mapError .error
      let acc2 ← (parseAcc X (D.answer2 (D.hash (fork + 1)))).mapError .error
      .ok (if acc1 ≠ acc ∧ acc2 ≠ acc then .bothLying
        else if acc1 ≠ acc then .oneLying D.peer1 else .oneLying D.peer2)

theorem judge_returns {fork : Nat} (hle : fork + 1 ≤ D.tip) :
    Returns (do judge X D.peer1 D.peer2 fork (← parse X (D.answer1 (D.hash fork))))
      (D.verdict fork) := by
  have hlt := D.tip_lt
  refine (Returns.lift _).andThen fun agreed => ?_
  refine (moveHeight_newer (by omega)).bind ?_
  refine (D.getBlockHash_returns hle).bind ?_
  refine (D.grab_returns (D.hash (fork + 1)) (fork + 1)).bind ?_
  refine (D.serves (fork + 1) hle).attempt.bind ?_
  cases D.served (fork + 1) with
  | error fault =>
    cases fault with
    | error e => cases e <;> exact fun _ => rfl
    | panic => exact Returns.fail _
    | diverged => exact Returns.fail _
  | ok inflight =>
    refine (Returns.lift _).andThen fun acc => ?_
    refine (Returns.lift _).andThen fun acc1 => ?_
    refine (Returns.lift _).andThen fun acc2 => ?_
    by_cases hboth : acc1 ≠ acc ∧ acc2 ≠ acc
    · rw [if_pos hboth, if_pos hboth]
      exact Returns.pure _
    · rw [if_neg hboth, if_neg hboth]
      by_cases hfirst : acc1 ≠ acc
      · rw [if_pos hfirst, if_pos hfirst]
        exact Returns.pure _
      · rw [if_neg hfirst, if_neg hfirst]
        exact Returns.pure _

theorem scanAndJudge_returns {land fork : Nat} (hle : land ≤ D.tip)
    (h : ScanStops D.differ D.tip land fork) :
    Returns (scanAndJudge X D.peer1 D.peer2 land (D.hash land)) (D.verdict fork) := by
  have hfork := h.lt hle
  refine (D.grab_returns (D.hash land) land).bind ?_
  dsimp only
  rw [D.scan_same_eq]
  refine (D.scanFrom_stops hle h).bind ?_
  refine (D.getBlockHash_returns (Nat.le_of_succ_le hfork)).bind ?_
  refine (D.grab_returns (D.hash fork) fork).bind ?_
  exact D.judge_returns hfork

theorem scanAndJudge_fails {land : Nat} (hpos : 1 ≤ land) (hle : land ≤ D.tip)
    (h : ¬ ∃ fork, ScanStops D.differ D.tip land fork) :
    ∃ fault, Returns (scanAndJudge X D.peer1 D.peer2 land (D.hash land)) (.error fault) := by
  rcases D.scanFrom_fails hpos hle h with ⟨fault, hfault⟩
  refine ⟨fault, (D.grab_returns (D.hash land) land).bind ?_⟩
  dsimp only
  rw [D.scan_same_eq]
  exact hfault.bind_error

theorem verdict_iff {fork : Nat} (hle : fork + 1 ≤ D.tip) :
    D.verdict fork = .ok (.oneLying D.liar) ↔ D.Exposed fork := by
  have hhonest := D.honest (fork + 1) hle
  have hagreed := D.honest fork (Nat.le_of_succ_le hle)
  unfold verdict Exposed liar
  cases hfirst : D.honestFirst with
  | true =>
    rcases D.replay hfirst fork hle with ⟨inflight, hserved, hreplay⟩
    simp only [hfirst, if_true] at hhonest hagreed ⊢
    simp only [hagreed, hserved, bind_eq_ok, mapError_eq_ok, hhonest]
    constructor
    · rintro ⟨-, -, -, -, -, -, acc, hacc, -⟩
      exact ⟨acc, hacc⟩
    · rintro ⟨acc, hacc⟩
      refine ⟨_, rfl, _, hreplay, _, rfl, acc, hacc, ?_⟩
      rw [if_neg (fun h => h.1 rfl), if_neg (not_not.mpr rfl)]
  | false =>
    simp only [hfirst, Bool.false_eq_true, if_false] at hhonest ⊢
    simp only [bind_eq_ok, mapError_eq_ok]
    constructor
    · rintro ⟨agreed, hagreed, hverdict⟩
      cases hserved : D.served (fork + 1) with
      | error fault =>
        rw [hserved] at hverdict
        rcases fault with e | _ | _
        · cases e <;> cases hverdict
        · cases hverdict
        · cases hverdict
      | ok inflight =>
        simp only [hserved, bind_eq_ok, mapError_eq_ok, hhonest] at hverdict
        rcases hverdict with ⟨acc, hreplay, acc1, hacc1, acc2, hacc2, hjudged⟩
        cases hacc2
        by_cases hboth : acc1 ≠ acc ∧ D.truth (fork + 1) ≠ acc
        · rw [if_pos hboth] at hjudged
          cases hjudged
        rw [if_neg hboth] at hjudged
        by_cases hlies : acc1 ≠ acc
        · have htruth : D.truth (fork + 1) = acc :=
            not_not.mp fun hne => hboth ⟨hlies, hne⟩
          rw [htruth]
          exact ⟨agreed, inflight, acc1, hagreed, rfl, hreplay, hacc1, hlies⟩
        · rw [if_neg hlies] at hjudged
          exact absurd (PeerCheck.oneLying.inj (Except.ok.inj hjudged)).symm D.distinct
    · rintro ⟨agreed, inflight, acc, hagreed, hserved, hreplay, hacc, hlies⟩
      refine ⟨agreed, hagreed, ?_⟩
      simp only [hserved, bind_eq_ok, mapError_eq_ok]
      refine ⟨_, hreplay, acc, hacc, _, hhonest, ?_⟩
      rw [if_neg (fun h => h.2 rfl), if_pos hlies]

theorem narrow_tip :
    Returns (loop .diverged (narrow X D.peer1 D.peer2) (X.bestBlock.1 + 1)
        (X.bestBlock.1, X.bestBlock.2, 0))
      (.ok (.inr (landing D.differ D.tip D.tip, D.hash (landing D.differ D.tip D.tip)))) ∧
      1 ≤ landing D.differ D.tip D.tip ∧ landing D.differ D.tip D.tip ≤ D.tip := by
  have hinterval : max D.tip 0 - min D.tip 0 = D.tip := by simp
  rcases D.narrow_lands hinterval (Nat.le_refl _) (.inr rfl) (Nat.lt_succ_self _) with
    ⟨hlands, hpos, hle⟩
  rw [D.best]
  exact ⟨hlands, hpos D.tip_pos, hle⟩

def StopsAt (fork : Nat) : Prop :=
  ScanStops D.differ D.tip (landing D.differ D.tip D.tip) fork

theorem stopsAt_lt {fork : Nat} (h : D.StopsAt fork) : fork + 1 ≤ D.tip :=
  h.lt D.narrow_tip.2.2

theorem findWhoIsLying_returns {fork : Nat} (h : D.StopsAt fork) :
    Returns (findWhoIsLying X D.peer1 D.peer2) (D.verdict fork) := by
  rcases D.narrow_tip with ⟨hlands, -, hle⟩
  exact hlands.bind (D.scanAndJudge_returns hle h)

theorem findWhoIsLying_fails (h : ¬ ∃ fork, D.StopsAt fork) :
    ∃ fault, Returns (findWhoIsLying X D.peer1 D.peer2) (.error fault) := by
  rcases D.narrow_tip with ⟨hlands, hpos, hle⟩
  rcases D.scanAndJudge_fails hpos hle h with ⟨fault, hfault⟩
  exact ⟨fault, hlands.bind hfault⟩

/-- The search blames the dishonest peer if the scan stops at a block where the replay of the next
one exposes it, and only then. -/
theorem findWhoIsLying_blames_iff (s : Node) :
    (findWhoIsLying X D.peer1 D.peer2 s).1 = .ok (.oneLying D.liar) ↔
      ∃ fork, D.StopsAt fork ∧ D.Exposed fork := by
  by_cases hstops : ∃ fork, D.StopsAt fork
  · rcases hstops with ⟨fork, hfork⟩
    have hresult := D.findWhoIsLying_returns hfork s
    rw [hresult, D.verdict_iff (D.stopsAt_lt hfork)]
    refine ⟨fun h => ⟨fork, hfork, h⟩, ?_⟩
    rintro ⟨fork', hfork', h⟩
    rw [hfork.unique hfork']
    exact h
  · rcases D.findWhoIsLying_fails hstops with ⟨fault, hfault⟩
    rw [hfault s]
    constructor
    · intro h
      cases h
    · rintro ⟨fork, hfork, -⟩
      exact absurd ⟨fork, hfork⟩ hstops

end Dispute

/-! ## Small disputes

Blocks with a coinbase each, and accumulators whose roots do not depend on the leaves.  One peer
tells the truth, the other one lies at the heights that satisfy a test. -/

namespace Sample

open Bitcoin

def stumpOf (leaves : Nat) (fill : UInt8) : Nat × List Bytes :=
  (leaves, List.replicate (countOnes leaves) (List.replicate 32 fill))

def rustreexo : Rustreexo where
  Stump := Nat × List Bytes
  Proof := Unit
  new := (0, [])
  modify acc adds _ _ := .ok (stumpOf (acc.1 + adds.length) 0)
  serialize _ := []
  deserialize _ := .error ""

def stateOf (leaves : Nat) (fill : UInt8) : Bytes :=
  if leaves = 0 then []
  else Bitcoin.Sample.littleEndian 8 leaves ++ List.replicate (32 * countOnes leaves) fill

def mint : Transaction :=
  ⟨1, .blocks 0, [⟨OutPoint.null, [0, 0], 0xffffffff, []⟩], [⟨Amount.fromSat 70, [0x51]⟩]⟩

def block (height : Nat) : Block :=
  ⟨⟨1, 0, sample.computeTxid mint, 0, 0, UInt32.ofNat height⟩, [mint]⟩

def hash (height : Nat) : BlockHash := sample.blockHash (block height).header

def heightOf (h : BlockHash) : Nat := (List.range 6).findIdx fun i => hash i = h

def honestAnswer (h : BlockHash) : Bytes := stateOf (heightOf h) 0

def lyingAnswer (lies : Nat → Bool) (h : BlockHash) : Bytes :=
  stateOf (heightOf h) (if lies (heightOf h) then 1 else 0)

def proof : UtreexoProof rustreexo := ⟨[], ()⟩

/-- The peers 1 and 2 answer requests for accumulators with `answer1` and `answer2`; the first one
serves blocks with their proofs. -/
def context (tip : Nat) (answer1 answer2 : BlockHash → Bytes) : Context where
  bitcoin := sample
  rustreexo := rustreexo
  stumpEq := inferInstanceAs (DecidableEq (Nat × List Bytes))
  stump leaves roots := (leaves, roots)
  bestBlock := (tip, hash tip)
  getBlockHash i := if i ≤ tip then .ok (hash i) else .error .blockNotPresent
  getMtpByHeight _ := .ok 0
  peerIds := [1, 2]
  isArchive _ := true
  isManual _ := false
  otherRequests := false
  receive sent :=
    match sent.getLast? with
    | some (_, .getUtreexoState h _) =>
      [some (1, .utreexoState (answer1 h)), some (2, .utreexoState (answer2 h))]
    | some (peer, .getBlock h) =>
      [some (peer, .block (block (heightOf h))), some (peer, .utreexoProof proof)]
    | _ => []

theorem heightOf_hash {i : Nat} (hi : i ≤ 5) : heightOf (hash i) = i := by
  have hall : ∀ i ≤ 5, heightOf (hash i) = i := by decide +kernel
  exact hall i hi

theorem parse_stateOf {tip i : Nat} (hi : i ≤ 5)
    {fill : UInt8} (hfill : fill ∈ [(0 : UInt8), 1]) :
    parseAcc (context tip answer1 answer2) (stateOf i fill) = .ok (stumpOf i fill) := by
  have hall : ∀ i ≤ 5, ∀ fill ∈ [(0 : UInt8), 1],
      parseAcc (context 0 (fun _ => []) (fun _ => [])) (stateOf i fill) = .ok (stumpOf i fill) := by
    decide +kernel
  exact hall i hi fill hfill

theorem context_serves {tip i : Nat} (hi : i ≤ 5) :
    Returns (getBlockAndProof (context tip answer1 answer2) 1 (hash i)) (.ok ⟨1, block i, proof⟩) := by
  have hclean : ∀ i ≤ 5, ((Consensus.checkMerkleRoot sample (block i)).isNone ||
      !sample.checkWitnessCommitment (block i)) = false := by decide +kernel
  have hmutated : isMutated (context tip answer1 answer2) (block i) = false := hclean i hi
  have hhash : (context tip answer1 answer2).bitcoin.blockHash (block i).header = hash i := rfl
  intro s
  have hreceive : (context tip answer1 answer2).receive (s.sent ++ [(1, .getBlock (hash i))]) =
      [some (1, .block (block i)), some (1, .utreexoProof proof)] := by
    simp [context, heightOf_hash hi]
  change (awaitBlockAndProof (context tip answer1 answer2) 1 (hash i) none
    ((context tip answer1 answer2).receive (s.sent ++ [(1, .getBlock (hash i))])) _).1 = _
  rw [hreceive]
  simp only [awaitBlockAndProof, hhash, hmutated, ne_eq, not_true_eq_false, decide_false,
    Bool.or_self, Bool.false_eq_true, if_false]
  rfl

theorem context_replays {tip i : Nat} (hi : i < 5) :
    updateAcc (context tip answer1 answer2) (stumpOf i 0) (block (i + 1)) () [] (i + 1) =
      .ok (stumpOf (i + 1) 0) := by
  have hadds : ∀ i ≤ 5, (Udata.getBlockAdds sample (block i) i (hash i)).length = 1 := by
    decide +kernel
  have hlength := hadds (i + 1) hi
  change Except.ok (stumpOf (i + (Udata.getBlockAdds sample (block (i + 1)) (i + 1)
    (hash (i + 1))).length) 0) = _
  rw [hlength]
  rfl

/-- The first peer tells the truth if `honestFirst`, the other one lies. -/
def dispute (tip : Nat) (lies : Nat → Bool) (honestFirst : Bool) (hpos : 1 ≤ tip) (hle : tip ≤ 5)
    (hlies : lies tip = true) :
    Dispute (context tip (if honestFirst then honestAnswer else lyingAnswer lies)
      (if honestFirst then lyingAnswer lies else honestAnswer)) where
  peer1 := 1
  peer2 := 2
  distinct := by decide
  tip := tip
  tip_pos := hpos
  tip_lt := Nat.lt_of_le_of_lt hle (by decide)
  hash := hash
  best := rfl
  known i hi := if_pos hi
  unknown i hi := if_neg (Nat.not_le.mpr hi)
  answer1 := if honestFirst then honestAnswer else lyingAnswer lies
  answer2 := if honestFirst then lyingAnswer lies else honestAnswer
  replies sent h height := by simp [context]
  served i := .ok ⟨1, block i, proof⟩
  serves i hi := context_serves (Nat.le_trans hi hle)
  truth i := stumpOf i 0
  honestFirst := honestFirst
  honest i hi := by
    have hanswer : (if honestFirst then (if honestFirst then honestAnswer else lyingAnswer lies)
          (hash i) else (if honestFirst then lyingAnswer lies else honestAnswer) (hash i)) =
        stateOf i 0 := by
      cases honestFirst <;> simp [honestAnswer, heightOf_hash (Nat.le_trans hi hle)]
    rw [hanswer]
    exact parse_stateOf (Nat.le_trans hi hle) List.mem_cons_self
  replay _ i hi := ⟨_, rfl, context_replays (Nat.lt_of_lt_of_le hi hle)⟩
  disagree := by
    have hall : ∀ i ≤ 5, 1 ≤ i → stateOf i 0 ≠ stateOf i 1 := by decide +kernel
    have hne := hall tip hle hpos
    cases honestFirst <;>
      simp [honestAnswer, lyingAnswer, heightOf_hash hle, hlies, hne, hne.symm]

end Sample

open Sample in
/-- The second of two peers lies from the second of five blocks on, and is blamed. -/
theorem findWhoIsLying_blames_second :
    ∃ (X : Context) (D : Dispute X), D.tip = 5 ∧ D.liar = 2 ∧
      (findWhoIsLying X D.peer1 D.peer2 ⟨[], [], []⟩).1 = .ok (.oneLying D.liar) := by
  let D := dispute 5 (2 ≤ ·) true (by decide) (by decide) rfl
  have hdiffer : D.differ 5 = true ∧ D.differ 3 = true ∧ D.differ 1 = false := by decide +kernel
  have hland : landing D.differ 5 5 = 3 := by
    rw [landing, if_neg (by decide), if_pos hdiffer.1, landing, if_pos (by decide)]
  refine ⟨_, D, rfl, rfl, (D.findWhoIsLying_blames_iff _).mpr ⟨1, ?_, ?_⟩⟩
  · change ScanStops D.differ 5 (landing D.differ 5 5) 1
    rw [hland]
    unfold ScanStops
    rw [if_pos hdiffer.2.1]
    exact ⟨Nat.le_refl _, Nat.le_refl _, hdiffer.2.2, fun i hi hi' => by omega⟩
  · have hanswer : D.answer2 (hash 2) = stateOf 2 1 := by decide +kernel
    change ∃ acc, parseAcc _ (D.answer2 (hash 2)) = .ok acc
    rw [hanswer]
    exact ⟨_, parse_stateOf (Nat.le_of_ble_eq_true rfl) (List.mem_cons_of_mem _ (List.mem_singleton_self _))⟩

open Sample in
/-- The first of two peers lies at the tip only, three blocks high, and the honest peer is blamed:
both answers for the block after the fork point are true.  If it lies about the only block of a
chain, the search looks for a block below the genesis block. -/
theorem findWhoIsLying_blames_honest :
    (∃ (X : Context) (D : Dispute X), D.tip = 3 ∧ D.liar = D.peer1 ∧
      (findWhoIsLying X D.peer1 D.peer2 ⟨[], [], []⟩).1 = .ok (.oneLying D.peer2)) ∧
    ∃ (X : Context) (D : Dispute X), D.tip = 1 ∧ D.liar = D.peer1 ∧
      (findWhoIsLying X D.peer1 D.peer2 ⟨[], [], []⟩).1 = .error .panic := by
  refine ⟨⟨_, dispute 3 (· = 3) false (by decide) (by decide) rfl, rfl, rfl, ?_⟩,
    ⟨_, dispute 1 (· = 1) false (by decide) (by decide) rfl, rfl, rfl, ?_⟩⟩
  · decide +kernel
  · decide +kernel

end Floresta.Wire
