import Mathlib.Data.List.Pairwise
import Mathlib.Data.List.Sort
import Mathlib.Data.List.Lex
import Mathlib.Data.UInt
import Floresta.Wire.CutAndChoose

/-!
# AccumulatorSelection — the accumulator that is left over

The answers of the archive peers are ordered by peer id, and neighbours whose answers are not known
to be false yet are compared.  One answer has to be left over at the end.  With which answers this
works is a matter of which neighbours get compared: a greedy choice of windows that share no false
answer.
-/

namespace Floresta.Wire

open Prog

variable {done : List (PeerId × PeerId)} {accs : List (PeerId × Bytes)} {invalid : List Bytes}
  {w : PeerId × PeerId}

/-! ## Candidates -/

theorem eraseReps_of_nodup {α : Type} [BEq α] [LawfulBEq α] {l : List α} (h : l.Nodup) :
    l.eraseReps = l := by
  have hloop : ∀ (l r : List α) (a : α), (a :: l).Nodup →
      List.eraseRepsBy.loop (· == ·) a l r = r.reverse ++ a :: l := by
    intro l
    induction l with
    | nil =>
      intro r a _
      simp [List.eraseRepsBy.loop]
    | cons b l ih =>
      intro r a hnodup
      have hne : (a == b) = false := by
        refine beq_eq_false_iff_ne.mpr ?_
        rintro rfl
        exact (List.nodup_cons.mp hnodup).1 List.mem_cons_self
      rw [List.eraseRepsBy.loop, hne]
      simp [ih (a :: r) b (List.nodup_cons.mp hnodup).2]
  cases l with
  | nil => rfl
  | cons a l => exact (hloop l [] a h)

instance : IsTrans (PeerId × Bytes) CandidateLe where
  trans a b c hab hbc := by
    rcases hab with hab | ⟨hab, hab'⟩
    · rcases hbc with hbc | ⟨hbc, -⟩
      · exact .inl (Nat.lt_trans hab hbc)
      · exact .inl (hbc ▸ hab)
    · rcases hbc with hbc | ⟨hbc, hbc'⟩
      · exact .inl (hab ▸ hbc)
      · exact .inr ⟨hab.trans hbc, List.le_trans hab' hbc'⟩

instance : Std.Total CandidateLe where
  total a b := by
    rcases Nat.lt_trichotomy a.1 b.1 with hlt | heq | hgt
    · exact .inl (.inl hlt)
    · rcases List.le_total a.2 b.2 with hle | hle
      · exact .inl (.inr ⟨heq, hle⟩)
      · exact .inr (.inr ⟨heq.symm, hle⟩)
    · exact .inr (.inl hgt)

/-! ## The comparison of two peers keeps no log -/

/-- The program leaves the log of comparisons alone. -/
def LogFree {α : Type} (m : NodeM α) : Prop :=
  ∀ log, Within (fun s => s.compared = log) (fun _ => True) m fun _ => True

namespace LogFree

variable {α β : Type} (X : Context)

theorem of_eq {m : NodeM α} (h : ∀ s, (m s).2.compared = s.compared) : LogFree m := by
  intro log s hs
  refine ⟨(h s).trans hs, ?_⟩
  cases (m s).1 <;> trivial

theorem bind {m : NodeM α} {f : α → NodeM β} (hm : LogFree m) (hf : ∀ a, LogFree (f a)) :
    LogFree (m >>= f) := fun log => (hm log).bind fun a _ => hf a log

theorem loop {body : α → NodeM (α ⊕ β)} (hbody : ∀ a, LogFree (body a)) (fuel : Nat) (a : α) :
    LogFree (Prog.loop .diverged body fuel a) := by
  induction fuel generalizing a with
  | zero => exact of_eq fun _ => rfl
  | succ fuel ih =>
    refine bind (hbody a) fun round => ?_
    cases round with
    | inl a' => exact ih a'
    | inr b => exact of_eq fun _ => rfl

theorem attempt {m : NodeM α} (hm : LogFree m) : LogFree (Prog.attempt m) :=
  fun log s hs => ⟨(hm log s hs).1, trivial⟩

theorem moveHeight (newer : Bool) (height step : Nat) : LogFree (moveHeight newer height step) := by
  refine of_eq fun s => ?_
  unfold Wire.moveHeight addU32 subU32
  split <;> split <;> rfl

theorem forkPoint (agree same : Bool) (height : Nat) : LogFree (forkPoint agree same height) := by
  match agree, same with
  | true, false => exact moveHeight false height 1
  | true, true => exact of_eq fun _ => rfl
  | false, false => exact of_eq fun _ => rfl
  | false, true => exact of_eq fun _ => rfl

theorem grab (peer1 peer2 : PeerId) (hash : BlockHash) (height : Nat) :
    LogFree (grabBothPeersVersion X peer1 peer2 hash height) := of_eq fun _ => rfl

theorem ban (peer : PeerId) : LogFree (disconnectAndBan X peer) := by
  refine of_eq fun s => ?_
  unfold disconnectAndBan
  split <;> rfl

theorem awaitBlockAndProof (peer : PeerId) (hash : BlockHash) (block : Option Block)
    (notifications : List (Notification X.rustreexo)) :
    LogFree (awaitBlockAndProof X peer hash block notifications) := by
  induction notifications generalizing block with
  | nil => exact of_eq fun _ => rfl
  | cons notification rest ih =>
    rcases notification with _ | ⟨id, message⟩
    · exact ih block
    · unfold Wire.awaitBlockAndProof
      by_cases hid : id ≠ peer
      · rw [if_pos hid]
        exact ih block
      · rw [if_neg hid]
        cases message with
        | block recvBlock =>
          dsimp only
          split
          · exact (ban X peer).bind fun _ => of_eq fun _ => rfl
          · exact bind (of_eq fun _ => rfl) fun _ => ih (some recvBlock)
        | utreexoProof proof =>
          cases block with
          | none => exact (ban X peer).bind fun _ => of_eq fun _ => rfl
          | some block => exact of_eq fun _ => rfl
        | utreexoState state => exact ih block
        | other => exact ih block

theorem narrow (peer1 peer2 : PeerId) (p : Nat × BlockHash × Nat) :
    LogFree (narrow X peer1 peer2 p) := by
  refine (grab X peer1 peer2 _ _).bind fun versions => ?_
  split
  · dsimp only
    split
    · exact of_eq fun _ => rfl
    · exact (moveHeight _ _ _).bind fun _ => bind (of_eq fun _ => rfl) fun _ => of_eq fun _ => rfl
  all_goals exact of_eq fun _ => rfl

theorem scan (agree : Bool) (peer1 peer2 : PeerId) (p : Nat × BlockHash) :
    LogFree (scan X agree peer1 peer2 p) := by
  refine (grab X peer1 peer2 _ _).bind fun versions => ?_
  refine (forkPoint agree _ _).bind fun fork => ?_
  split
  · exact of_eq fun _ => rfl
  · exact (moveHeight _ _ _).bind fun _ => bind (of_eq fun _ => rfl) fun _ => of_eq fun _ => rfl

theorem judge (peer1 peer2 : PeerId) (fork : Nat) (agreed : X.rustreexo.Stump) :
    LogFree (judge X peer1 peer2 fork agreed) := by
  refine (moveHeight true fork 1).bind fun next => ?_
  refine bind (of_eq fun _ => rfl) fun hash => (grab X peer1 peer2 _ _).bind fun versions => ?_
  split
  · exact of_eq fun _ => rfl
  · refine (attempt (bind (of_eq fun _ => rfl) fun _ => bind (of_eq fun _ => rfl) fun _ =>
      awaitBlockAndProof X peer1 hash none _)).bind fun served => ?_
    split
    · exact of_eq fun _ => rfl
    · exact of_eq fun _ => rfl
    · refine bind (of_eq fun _ => rfl) fun acc => bind (of_eq fun _ => rfl) fun acc1 => ?_
      refine bind (of_eq fun _ => rfl) fun acc2 => ?_
      split
      · exact of_eq fun _ => rfl
      · split <;> exact of_eq fun _ => rfl

theorem findWhoIsLying (peer1 peer2 : PeerId) : LogFree (findWhoIsLying X peer1 peer2) := by
  refine (loop (narrow X peer1 peer2) _ _).bind fun landed => ?_
  split
  · exact of_eq fun _ => rfl
  · refine (grab X peer1 peer2 _ _).bind fun versions => ?_
    refine bind ((moveHeight _ _ _).bind fun _ => loop (scan X _ peer1 peer2) _ _) fun fork => ?_
    refine bind (of_eq fun _ => rfl) fun hash => (grab X peer1 peer2 _ _).bind fun agreed => ?_
    split
    · exact bind (of_eq fun _ => rfl) fun _ => judge X peer1 peer2 fork _
    · exact bind (of_eq fun _ => rfl) fun _ => judge X peer1 peer2 fork _
    · exact of_eq fun _ => rfl

end LogFree

/-! ## A poll -/

/-- The archive peers by their ids. -/
def Context.peerOrder (X : Context) : List PeerId := X.archivePeers.insertionSort (· ≤ ·)

theorem peerOrder_perm (X : Context) : X.peerOrder.Perm X.archivePeers :=
  List.perm_insertionSort ..

def statesOf {R : Rustreexo} (notifications : List (Notification R)) : List (PeerId × Bytes) :=
  notifications.filterMap fun notification =>
    match notification with
    | some (peer, .utreexoState state) => some (peer, state)
    | _ => none

/-- Archive peers that all answer a request, at least one of them honestly. -/
structure Poll (X : Context) where
  hash : BlockHash
  height : Nat
  answer : PeerId → Bytes
  nodup : X.peerIds.Nodup
  /-- every archive peer answers once, in any order and among other notifications -/
  replies : ∀ sent, (statesOf (X.receive (sent ++ X.archivePeers.map
    fun peer => (peer, .getUtreexoState hash height)))).Perm
      (X.archivePeers.map fun peer => (peer, answer peer))
  honest : Bytes
  truth : X.rustreexo.Stump
  parsed : parseAcc X honest = .ok truth
  someHonest : ∃ peer ∈ X.archivePeers, answer peer = honest
  check : PeerId → PeerId → NodeM PeerCheck
  /-- of two peers with different answers, the comparison blames those that are not honest -/
  checked : ∀ peer1 peer2, answer peer1 ≠ answer peer2 → Returns (check peer1 peer2)
    (.ok (if answer peer1 = honest then .oneLying peer2
      else if answer peer2 = honest then .oneLying peer1 else .bothLying))
  quiet : ∀ peer1 peer2 s, (check peer1 peer2 s).2.compared = s.compared

namespace Poll

variable {X : Context} (P : Poll X) {s : Node}

/-- Two windows share no false answer. -/
def Apart (w v : PeerId × PeerId) : Prop :=
  ∀ a ∈ [P.answer w.1, P.answer w.2], a ∈ [P.answer v.1, P.answer v.2] → a = P.honest

instance : DecidableRel P.Apart := fun w v => by unfold Apart; infer_instance

/-- The windows that are compared: from the left, each one that shares no false answer with those
chosen before. -/
def chosen (windows : List (PeerId × PeerId)) : List (PeerId × PeerId) :=
  windows.reverse.pwFilter P.Apart

/-- One answer is honest, no two equal answers are compared, and every false answer is in a window
that is compared. -/
structure Separated : Prop where
  one : (X.archivePeers.filter (P.answer · = P.honest)).length = 1
  differ : ∀ w ∈ P.chosen (X.peerOrder.zip X.peerOrder.tail), P.answer w.1 ≠ P.answer w.2
  covered : ∀ peer ∈ X.archivePeers, P.answer peer ≠ P.honest →
    ∃ w ∈ P.chosen (X.peerOrder.zip X.peerOrder.tail),
      P.answer peer = P.answer w.1 ∨ P.answer peer = P.answer w.2

def Decisive : Prop :=
  (∀ peer ∈ X.archivePeers, P.answer peer = P.honest) ∨ P.Separated

/-- The honest accumulator is returned, and no two peers with the same answer are compared. -/
structure Selects (s : Node) : Prop where
  result : (findAccumulatorWith X P.check P.height P.hash s).1 = .ok P.truth
  calls : ∀ w ∈ (findAccumulatorWith X P.check P.height P.hash s).2.compared,
    P.answer w.1 ≠ P.answer w.2

/-! ## Collecting the answers -/

theorem awaitStates_eq (notifications : List (Notification X.rustreexo)) {inflight : List PeerId}
    (accs : List (PeerId × Bytes))
    (h : ((statesOf notifications).map Prod.fst).Perm inflight) :
    awaitStates X inflight accs notifications = accs ++ statesOf notifications := by
  induction notifications generalizing inflight accs with
  | nil => simp [awaitStates, statesOf]
  | cons notification rest ih =>
    unfold awaitStates
    by_cases hempty : inflight = [] ∧ ¬ X.otherRequests
    · rw [if_pos hempty]
      rw [hempty.1, List.perm_nil, List.map_eq_nil_iff] at h
      rw [h, List.append_nil]
    · rw [if_neg hempty]
      rcases notification with _ | ⟨peer, message⟩
      · exact ih accs h
      · cases message with
        | utreexoState state =>
          have hstates : statesOf (some (peer, .utreexoState state) :: rest) =
              (peer, state) :: statesOf rest := rfl
          rw [hstates, List.map_cons] at h
          have herase : ((statesOf rest).map Prod.fst).Perm (inflight.erase peer) := by
            have := h.erase peer
            rwa [List.erase_cons_head] at this
          change awaitStates X _ _ rest = _
          rw [ih _ herase, hstates, List.append_assoc, List.singleton_append]
        | block block => exact ih accs h
        | utreexoProof proof => exact ih accs h
        | other => exact ih accs h

theorem sendAll_sent (peers : List PeerId) (request : NodeRequest) (s : Node) :
    peers.forM (fun peer => sendToPeer peer request) s =
      (.ok (), { s with sent := s.sent ++ peers.map fun peer => (peer, request) }) := by
  induction peers generalizing s with
  | nil => simp; rfl
  | cons peer peers ih =>
    change (peers.forM fun peer => sendToPeer peer request) { s with
      sent := s.sent ++ [(peer, request)] } = _
    rw [ih]
    simp

theorem compareStates_same {acc : Bytes} (hne : accs ≠ [])
    (h : ∀ x ∈ accs, x.2 = acc) : compareStates accs = .found acc := by
  have hdedup : (accs.map Prod.snd).dedup = [acc] := by
    rw [List.eq_replicate_of_mem (l := accs.map Prod.snd) (a := acc) (by
      rintro a ha
      rcases List.mem_map.mp ha with ⟨x, hx, rfl⟩
      exact h x hx)]
    exact List.replicate_dedup (by simpa using hne)
  unfold compareStates
  split
  · exact congrArg FindAccResult.found (h _ (List.mem_singleton_self _))
  · rw [hdedup]

theorem compareStates_differ {x y : PeerId × Bytes} (hx : x ∈ accs)
    (hy : y ∈ accs) (hne : x.2 ≠ y.2) : compareStates accs = .keepLooking accs := by
  unfold compareStates
  split
  · rw [List.mem_singleton] at hx hy
    exact absurd (by rw [hx, hy]) hne
  · split
    · rename_i acc hdedup
      have hmem : ∀ z ∈ accs, z.2 = acc := by
        intro z hz
        have hsnd := List.mem_dedup.mpr (List.mem_map_of_mem (f := Prod.snd) hz)
        rwa [hdedup, List.mem_singleton] at hsnd
      exact absurd ((hmem x hx).trans (hmem y hy).symm) hne
    · rfl

theorem step_returns :
    ∃ accs, accs.Perm (X.archivePeers.map fun peer => (peer, P.answer peer)) ∧
    wp (findAccumulatorForBlockStep X P.hash P.height) (fun r s' =>
      r = .ok (if ∀ peer ∈ X.archivePeers, P.answer peer = P.honest then .found P.honest
        else .keepLooking accs) ∧ s'.compared = s.compared) s := by
  have hperm := P.replies s.sent
  generalize hnotifications : X.receive (s.sent ++ X.archivePeers.map
    fun peer => (peer, .getUtreexoState P.hash P.height)) = notifications at hperm
  refine ⟨statesOf notifications, hperm, ?_⟩
  have hawait : awaitStates X X.archivePeers [] notifications = statesOf notifications := by
    refine awaitStates_eq _ [] ?_
    have hfst := hperm.map Prod.fst
    rwa [List.map_map, show Prod.fst ∘ (fun peer => (peer, P.answer peer)) = id from rfl,
      List.map_id] at hfst
  rcases P.someHonest with ⟨peer, hpeer, hanswer⟩
  have hmem : (peer, P.honest) ∈ statesOf notifications :=
    hperm.mem_iff.mpr (List.mem_map.mpr ⟨peer, hpeer, by rw [hanswer]⟩)
  have hnonempty : ¬ (X.archivePeers = [] ∧ ¬ X.otherRequests) :=
    fun h => List.ne_nil_of_mem hpeer h.1
  unfold findAccumulatorForBlockStep
  rw [wp_bind]
  unfold wp
  rw [sendAll_sent, andThen_ok, if_neg hnonempty]
  refine ⟨?_, rfl⟩
  change Except.ok (compareStates (awaitStates X X.archivePeers [] (X.receive _))) = _
  rw [hnotifications, hawait]
  by_cases hall : ∀ peer ∈ X.archivePeers, P.answer peer = P.honest
  · rw [if_pos hall]
    refine congrArg Except.ok (compareStates_same (List.ne_nil_of_mem hmem) fun x hx => ?_)
    rcases List.mem_map.mp (hperm.mem_iff.mp hx) with ⟨other, hother, rfl⟩
    exact hall other hother
  · rw [if_neg hall]
    rcases not_forall.mp hall with ⟨other, hother⟩
    rcases Classical.not_imp.mp hother with ⟨hother, hfalse⟩
    have hmem' : (other, P.answer other) ∈ statesOf notifications :=
      hperm.mem_iff.mpr (List.mem_map_of_mem hother)
    exact congrArg Except.ok (compareStates_differ hmem hmem' (Ne.symm hfalse))

theorem candidates_eq
    (hperm : accs.Perm (X.archivePeers.map fun peer => (peer, P.answer peer))) :
    (accs.insertionSort CandidateLe).eraseReps =
      X.peerOrder.map fun peer => (peer, P.answer peer) := by
  have hpeers : X.archivePeers.Nodup := P.nodup.filter _
  have hinj : Function.Injective fun peer => (peer, P.answer peer) :=
    fun p q h => congrArg Prod.fst h
  have hsorted := (List.perm_insertionSort CandidateLe accs).trans hperm
  have horder := peerOrder_perm X
  rw [eraseReps_of_nodup (hsorted.nodup_iff.mpr (hpeers.map hinj))]
  refine List.Perm.eq_of_pairwise ?_ (List.pairwise_insertionSort CandidateLe accs)
    ?_ (hsorted.trans (horder.map _).symm)
  · -- candidates with one peer are one candidate
    intro a b ha hb hab hba
    rcases List.mem_map.mp (hsorted.mem_iff.mp ha) with ⟨p, -, rfl⟩
    rcases List.mem_map.mp hb with ⟨q, -, rfl⟩
    rcases hab with hab | ⟨rfl, -⟩
    · rcases hba with hba | ⟨rfl, -⟩
      · exact absurd hba (Nat.lt_asymm hab)
      · rfl
    · rfl
  · rw [List.pairwise_map]
    refine (List.pairwise_insertionSort (· ≤ ·) X.archivePeers).imp fun {p q} hle => ?_
    rcases Nat.lt_or_eq_of_le hle with hlt | rfl
    · exact .inl hlt
    · exact .inr ⟨rfl, List.le_refl _⟩

/-! ## Comparing neighbours -/

def candidates (w : PeerId × PeerId) : (PeerId × Bytes) × (PeerId × Bytes) :=
  ((w.1, P.answer w.1), (w.2, P.answer w.2))

def Lie (w : PeerId × PeerId) (a : Bytes) : Prop :=
  a ≠ P.honest ∧ (a = P.answer w.1 ∨ a = P.answer w.2)

theorem wp_disconnectAndBan {α : Type} {peer : PeerId} {f : Unit → NodeM α}
    {Q : Except Fault α → Node → Prop} (h : ∀ s', s'.compared = s.compared → wp (f ()) Q s') :
    wp (disconnectAndBan X peer >>= f) Q s := by
  rw [wp_bind]
  unfold disconnectAndBan
  by_cases hmanual : X.isManual peer = true
  · rw [if_pos hmanual]
    exact h s rfl
  · rw [if_neg hmanual]
    exact h _ rfl

/-- The pairs compared so far only grow, and a window that is compared is added. -/
theorem checkWindow_compared (invalid : List Bytes) (w : PeerId × PeerId) :
    wp (checkWindow X P.check invalid (P.candidates w)) (fun _ s' =>
      (s'.compared = s.compared ∧ (P.answer w.1 ∈ invalid ∨ P.answer w.2 ∈ invalid)) ∨
        s'.compared = s.compared ++ [w]) s := by
  unfold checkWindow candidates
  dsimp only
  by_cases hskip : P.answer w.1 ∈ invalid ∨ P.answer w.2 ∈ invalid
  · rw [if_pos hskip]
    exact .inl ⟨rfl, hskip⟩
  · rw [if_neg hskip]
    refine wp_bind.mpr ?_
    rw [wp_modify, andThen_ok]
    refine wp_bind.mpr ?_
    have hquiet := P.quiet w.1 w.2 { s with compared := s.compared ++ [(w.1, w.2)] }
    unfold wp
    generalize P.check w.1 w.2 _ = run at hquiet ⊢
    rcases run with ⟨fault | verdict, s'⟩
    · exact .inr hquiet
    · dsimp only at hquiet ⊢
      rw [andThen_ok]
      have hdone : ∀ s'' : Node, s''.compared = s'.compared →
          (s''.compared = s.compared ∧ (P.answer w.1 ∈ invalid ∨ P.answer w.2 ∈ invalid)) ∨
            s''.compared = s.compared ++ [w] :=
        fun s'' h => .inr (h.trans hquiet)
      cases verdict with
      | oneLying liar => exact wp_disconnectAndBan hdone
      | unresponsivePeer deadPeer => exact wp_disconnectAndBan hdone
      | bothUnresponsivePeers =>
        refine wp_disconnectAndBan fun s1 h1 => ?_
        exact wp_disconnectAndBan fun s2 h2 => hdone s2 (h2.trans h1)
      | bothLying =>
        refine wp_disconnectAndBan fun s1 h1 => ?_
        exact wp_disconnectAndBan fun s2 h2 => hdone s2 (h2.trans h1)

theorem checkWindow_differ
    (hdue : ¬ (P.answer w.1 ∈ invalid ∨ P.answer w.2 ∈ invalid))
    (hne : P.answer w.1 ≠ P.answer w.2) :
    wp (checkWindow X P.check invalid (P.candidates w)) (fun r s' =>
      s'.compared = s.compared ++ [w] ∧
        ∃ invalid', r = .ok invalid' ∧ ∀ a, a ∈ invalid' ↔ a ∈ invalid ∨ P.Lie w a) s := by
  have hpeers : w.2 ≠ w.1 := fun heq => hne (by rw [heq])
  have hcheck := P.checked w.1 w.2 hne
  have hquiet := P.quiet w.1 w.2 { s with compared := s.compared ++ [w] }
  unfold checkWindow candidates
  dsimp only
  rw [if_neg hdue]
  refine wp_bind.mpr ?_
  rw [wp_modify, andThen_ok]
  refine wp_bind.mpr ?_
  have hverdict := hcheck { s with compared := s.compared ++ [w] }
  unfold wp
  generalize P.check w.1 w.2 _ = run at hquiet hverdict ⊢
  rcases run with ⟨result, s'⟩
  dsimp only at hquiet hverdict ⊢
  subst hverdict
  rw [andThen_ok]
  by_cases hfirst : P.answer w.1 = P.honest
  · rw [if_pos hfirst]
    refine wp_disconnectAndBan fun s1 h1 => ?_
    refine ⟨h1.trans hquiet, _, rfl, fun a => ?_⟩
    rw [if_neg hpeers, List.mem_append, List.mem_singleton]
    refine or_congr_right ⟨fun h => ?_, ?_⟩
    · exact ⟨fun heq => hne (hfirst.trans (heq.symm.trans h)), .inr h⟩
    · rintro ⟨hlie, h | h⟩
      · exact absurd (h.trans hfirst) hlie
      · exact h
  · rw [if_neg hfirst]
    by_cases hsecond : P.answer w.2 = P.honest
    · rw [if_pos hsecond]
      refine wp_disconnectAndBan fun s1 h1 => ?_
      refine ⟨h1.trans hquiet, _, rfl, fun a => ?_⟩
      rw [if_pos rfl, List.mem_append, List.mem_singleton]
      refine or_congr_right ⟨fun h => ⟨fun heq => hfirst (h.symm.trans heq), .inl h⟩, ?_⟩
      rintro ⟨hlie, h | h⟩
      · exact h
      · exact absurd (h.trans hsecond) hlie
    · rw [if_neg hsecond]
      refine wp_disconnectAndBan fun s1 h1 => ?_
      refine wp_disconnectAndBan fun s2 h2 => ?_
      refine ⟨(h2.trans h1).trans hquiet, _, rfl, fun a => ?_⟩
      rw [List.mem_append, List.mem_pair]
      refine or_congr_right ⟨fun h => ⟨?_, h⟩, fun h => h.2⟩
      rcases h with rfl | rfl
      · exact hfirst
      · exact hsecond

theorem chosen_concat (done : List (PeerId × PeerId)) (w : PeerId × PeerId) :
    P.chosen (done ++ [w]) =
      if ∀ v ∈ P.chosen done, P.Apart w v then w :: P.chosen done else P.chosen done := by
  unfold chosen
  rw [List.reverse_append, List.reverse_singleton, List.singleton_append]
  split
  · exact List.pwFilter_cons_of_pos ‹_›
  · exact List.pwFilter_cons_of_neg ‹_›

theorem mem_chosen_append {v : PeerId × PeerId}
    (hv : v ∈ P.chosen done) (windows : List (PeerId × PeerId)) :
    v ∈ P.chosen (done ++ windows) := by
  induction windows generalizing done with
  | nil => rwa [List.append_nil]
  | cons w windows ih =>
    rw [← List.singleton_append, ← List.append_assoc]
    refine ih ?_
    rw [P.chosen_concat]
    split
    · exact List.mem_cons_of_mem _ hv
    · exact hv

/-- The comparison of a window is due if it is apart from those that were chosen. -/
theorem due_iff
    (hinvalid : ∀ a, a ∈ invalid ↔ ∃ v ∈ P.chosen done, P.Lie v a) :
    ¬ (P.answer w.1 ∈ invalid ∨ P.answer w.2 ∈ invalid) ↔ ∀ v ∈ P.chosen done, P.Apart w v := by
  rw [hinvalid, hinvalid]
  constructor
  · intro h v hv a ha hshared
    by_contra hlie
    rw [List.mem_pair] at ha hshared
    rcases ha with rfl | rfl
    · exact h (.inl ⟨v, hv, hlie, hshared⟩)
    · exact h (.inr ⟨v, hv, hlie, hshared⟩)
  · rintro h (⟨v, hv, hlie, hshared⟩ | ⟨v, hv, hlie, hshared⟩)
    · exact hlie (h v hv _ (List.mem_pair.mpr (.inl rfl)) (List.mem_pair.mpr hshared))
    · exact hlie (h v hv _ (List.mem_pair.mpr (.inr rfl)) (List.mem_pair.mpr hshared))

theorem checkWindows_keep (windows : List (PeerId × PeerId))
    (invalid : List Bytes) (hw : w ∈ s.compared) :
    wp ((windows.map P.candidates).foldlM (checkWindow X P.check) invalid)
      (fun _ s' => w ∈ s'.compared) s := by
  induction windows generalizing invalid s with
  | nil => exact hw
  | cons v windows ih =>
    rw [List.map_cons, List.foldlM_cons]
    refine wp_bind.mpr (wp_mono (P.checkWindow_compared invalid v) ?_)
    intro r s' hs'
    have hw' : w ∈ s'.compared := by
      rcases hs' with ⟨hs', -⟩ | hs'
      · rwa [hs']
      · rw [hs']
        exact List.mem_append_left _ hw
    cases r with
    | error fault => exact hw'
    | ok invalid' =>
      rw [andThen_ok]
      exact ih invalid' hw'

/-- The loop over the windows: the chosen ones are compared, and their false answers are known at
the end; or two equal answers were compared. -/
theorem checkWindows_spec (windows : List (PeerId × PeerId))
    (hinvalid : ∀ a, a ∈ invalid ↔ ∃ v ∈ P.chosen done, P.Lie v a)
    (hdone : ∀ v ∈ P.chosen done, P.answer v.1 ≠ P.answer v.2)
    (hcalls : ∀ v ∈ s.compared, P.answer v.1 ≠ P.answer v.2) :
    wp ((windows.map P.candidates).foldlM (checkWindow X P.check) invalid) (fun r s' =>
      if ∀ v ∈ P.chosen (done ++ windows), P.answer v.1 ≠ P.answer v.2 then
        (∀ v ∈ s'.compared, P.answer v.1 ≠ P.answer v.2) ∧ ∃ invalid', r = .ok invalid' ∧
          ∀ a, a ∈ invalid' ↔ ∃ v ∈ P.chosen (done ++ windows), P.Lie v a
      else ∃ v ∈ s'.compared, P.answer v.1 = P.answer v.2) s := by
  induction windows generalizing done invalid s with
  | nil =>
    rw [List.append_nil]
    change if _ then _ else _
    rw [if_pos hdone]
    exact ⟨hcalls, invalid, rfl, hinvalid⟩
  | cons w windows ih =>
    have hdue := P.due_iff (w := w) hinvalid
    have hchosen := P.chosen_concat done w
    rw [List.map_cons, List.foldlM_cons]
    have hassoc : done ++ w :: windows = done ++ [w] ++ windows := by simp
    rw [hassoc]
    refine wp_bind.mpr ?_
    by_cases happart : ∀ v ∈ P.chosen done, P.Apart w v
    · rw [if_pos happart] at hchosen
      by_cases heq : P.answer w.1 = P.answer w.2
      · -- two equal answers are compared, and the rest does not matter
        have hmem : w ∈ P.chosen (done ++ [w] ++ windows) :=
          P.mem_chosen_append (by rw [hchosen]; exact List.mem_cons_self) windows
        have hnot : ¬ ∀ v ∈ P.chosen (done ++ [w] ++ windows), P.answer v.1 ≠ P.answer v.2 :=
          fun h => h w hmem heq
        simp only [if_neg hnot]
        refine wp_mono (P.checkWindow_compared invalid w) ?_
        intro r s' hs'
        have hw : w ∈ s'.compared := by
          rcases hs' with ⟨-, hskip⟩ | hs'
          · exact absurd hskip (hdue.mpr happart)
          · rw [hs']
            exact List.mem_append_right _ (List.mem_singleton_self _)
        cases r with
        | error fault => exact ⟨w, hw, heq⟩
        | ok invalid' =>
          rw [andThen_ok]
          exact wp_mono (P.checkWindows_keep windows invalid' hw) fun _ _ h => ⟨w, h, heq⟩
      · refine wp_mono (P.checkWindow_differ (hdue.mpr happart) heq) ?_
        rintro r s' ⟨hs', invalid', rfl, hinvalid'⟩
        rw [andThen_ok]
        refine ih ?_ ?_ ?_
        · intro a
          rw [hinvalid', hinvalid, hchosen, List.exists_mem_cons_iff, or_comm]
        · rw [hchosen]
          exact List.forall_mem_cons.mpr ⟨heq, hdone⟩
        · rw [hs']
          exact Fallible.forall_mem_snoc hcalls heq
    · rw [if_neg happart] at hchosen
      have hskip : P.answer w.1 ∈ invalid ∨ P.answer w.2 ∈ invalid :=
        not_not.mp fun h => happart (hdue.mp h)
      have hstep : checkWindow X P.check invalid (P.candidates w) s = (.ok invalid, s) := by
        unfold checkWindow candidates
        dsimp only
        rw [if_pos hskip]
        rfl
      unfold wp
      rw [hstep, andThen_ok]
      exact ih (by rwa [hchosen]) (by rwa [hchosen]) hcalls

/-! ## What is left over -/

theorem remaining_iff {windows : List (PeerId × PeerId)}
    (hinvalid : ∀ a, a ∈ invalid ↔ ∃ v ∈ windows, P.Lie v a) :
    (X.peerOrder.filter (P.answer · ∉ invalid)).length = 1 ↔
      (X.archivePeers.filter (P.answer · = P.honest)).length = 1 ∧
        ∀ peer ∈ X.archivePeers, P.answer peer ≠ P.honest →
          ∃ w ∈ windows, P.answer peer = P.answer w.1 ∨ P.answer peer = P.answer w.2 := by
  have horder := peerOrder_perm X
  have hhonest : P.honest ∉ invalid := by
    rw [hinvalid]
    rintro ⟨v, -, hlie, -⟩
    exact hlie rfl
  rw [(horder.filter _).length_eq]
  constructor
  · intro hone
    rcases P.someHonest with ⟨peer, hpeer, hanswer⟩
    rcases List.length_eq_one_iff.mp hone with ⟨last, hlast⟩
    have honly : ∀ other ∈ X.archivePeers, P.answer other ∉ invalid → other = last := by
      intro other hother hvalid
      have hmem : other ∈ X.archivePeers.filter (P.answer · ∉ invalid) :=
        List.mem_filter.mpr ⟨hother, decide_eq_true hvalid⟩
      rwa [hlast, List.mem_singleton] at hmem
    have hpeerLast : peer = last := honly peer hpeer (hanswer ▸ hhonest)
    have hknown : ∀ other ∈ X.archivePeers, P.answer other ≠ P.honest →
        P.answer other ∈ invalid := by
      intro other hother hlie
      by_contra hvalid
      rw [honly other hother hvalid, ← hpeerLast] at hlie
      exact hlie hanswer
    refine ⟨?_, fun other hother hlie => ?_⟩
    · rw [← hone]
      refine congrArg List.length (List.filter_congr fun other hother => ?_)
      refine decide_eq_decide.mpr ⟨fun heq => heq ▸ hhonest, fun hvalid => ?_⟩
      by_contra hlie
      exact hvalid (hknown other hother hlie)
    · rcases (hinvalid _).mp (hknown other hother hlie) with ⟨w, hw, -, hshared⟩
      exact ⟨w, hw, hshared⟩
  · rintro ⟨hone, hcovered⟩
    rw [← hone]
    refine congrArg List.length (List.filter_congr fun other hother => ?_)
    refine decide_eq_decide.mpr ⟨fun hvalid => ?_, fun heq => heq ▸ hhonest⟩
    by_contra hlie
    rcases hcovered other hother hlie with ⟨w, hw, hshared⟩
    exact hvalid ((hinvalid _).mpr ⟨w, hw, hlie, hshared⟩)

/-- Among the candidates, the honest one is taken exactly if it is left over alone. -/
theorem selectAmong_iff (hcalls : s.compared = []) :
    wp (selectAmong X P.check (X.peerOrder.map fun peer => (peer, P.answer peer)))
      (fun r s' => (r = .ok P.truth ∧ ∀ w ∈ s'.compared, P.answer w.1 ≠ P.answer w.2) ↔
        P.Separated) s := by
  have hwindows : (X.peerOrder.map fun peer => (peer, P.answer peer)).zip
      (X.peerOrder.map fun peer => (peer, P.answer peer)).tail =
        (X.peerOrder.zip X.peerOrder.tail).map P.candidates := by
    rw [← List.map_tail, List.zip_map]
    rfl
  unfold selectAmong
  rw [hwindows]
  have hnone : ∀ a, a ∈ ([] : List Bytes) ↔ ∃ v ∈ P.chosen [], P.Lie v a := by simp [chosen]
  have hloop := P.checkWindows_spec (s := s) (X.peerOrder.zip X.peerOrder.tail) hnone
    (by simp [chosen]) (by simp [hcalls])
  refine wp_bind.mpr (wp_mono hloop ?_)
  intro r s' h
  rw [List.nil_append] at h
  by_cases hgood : ∀ w ∈ P.chosen (X.peerOrder.zip X.peerOrder.tail), P.answer w.1 ≠ P.answer w.2
  · rw [if_pos hgood] at h
    rcases h with ⟨hlog, invalid, rfl, hinvalid⟩
    rw [andThen_ok]
    have hremaining := P.remaining_iff hinvalid
    have hseparated : (X.peerOrder.filter (P.answer · ∉ invalid)).length = 1 ↔ P.Separated :=
      hremaining.trans ⟨fun h => ⟨h.1, hgood, h.2⟩, fun h => ⟨h.one, h.covered⟩⟩
    have hcandidates : (X.peerOrder.map fun peer => (peer, P.answer peer)).filter (·.2 ∉ invalid) =
        (X.peerOrder.filter (P.answer · ∉ invalid)).map fun peer => (peer, P.answer peer) :=
      List.filter_map ..
    rw [hcandidates]
    -- the honest answer is always left
    rcases P.someHonest with ⟨peer, hpeer, hanswer⟩
    have hleft : peer ∈ X.peerOrder.filter (P.answer · ∉ invalid) := by
      refine List.mem_filter.mpr ⟨(peerOrder_perm X).mem_iff.mpr hpeer, decide_eq_true ?_⟩
      rw [hinvalid]
      rintro ⟨v, -, hlie, -⟩
      exact hlie hanswer
    generalize X.peerOrder.filter (P.answer · ∉ invalid) = left at hseparated hleft
    rcases left with _ | ⟨last, _ | ⟨second, rest⟩⟩
    · cases hleft
    · rw [← List.mem_singleton.mp hleft, ← hseparated]
      change ((parseAcc X (P.answer peer)).mapError Fault.error = _ ∧ _) ↔ _
      rw [hanswer, P.parsed]
      exact ⟨fun _ => rfl, fun _ => ⟨rfl, hlog⟩⟩
    · refine iff_of_false (fun h => by cases h.1) fun h => ?_
      have hone := hseparated.mpr h
      simp at hone
  · rw [if_neg hgood] at h
    rcases h with ⟨v, hv, heq⟩
    have hright : ¬ P.Separated := fun h => hgood h.differ
    cases r with
    | error fault => exact iff_of_false (fun h => h.2 v hv heq) hright
    | ok invalid =>
      rw [andThen_ok]
      split
      · exact iff_of_false (fun h => h.2 v hv heq) hright
      · exact iff_of_false (fun h => h.2 v hv heq) hright

/-- The honest accumulator is selected, without a panic and without comparing equal answers, if the
answers are decisive, and only then. -/
theorem selects_iff (sent : List (PeerId × NodeRequest)) (banned : List PeerId) :
    P.Selects ⟨sent, banned, []⟩ ↔ P.Decisive := by
  have hselects : P.Selects ⟨sent, banned, []⟩ ↔ wp (findAccumulatorWith X P.check P.height P.hash)
      (fun r s' => r = .ok P.truth ∧ ∀ w ∈ s'.compared, P.answer w.1 ≠ P.answer w.2)
        ⟨sent, banned, []⟩ :=
    ⟨fun h => ⟨h.result, h.calls⟩, fun h => ⟨h.1, h.2⟩⟩
  rcases P.step_returns (s := ⟨sent, banned, []⟩) with ⟨accs, hperm, hstep⟩
  rw [hselects]
  unfold findAccumulatorWith
  rw [wp_bind, wp_attempt]
  unfold wp at hstep ⊢
  generalize findAccumulatorForBlockStep X P.hash P.height _ = run at hstep ⊢
  rcases run with ⟨result, s'⟩
  rcases hstep with ⟨rfl, hcompared⟩
  dsimp only at hcompared ⊢
  rw [andThen_ok]
  by_cases hall : ∀ peer ∈ X.archivePeers, P.answer peer = P.honest
  · rw [if_pos hall]
    refine iff_of_true ⟨?_, ?_⟩ (.inl hall)
    · change (parseAcc X P.honest).mapError Fault.error = _
      rw [P.parsed]
      rfl
    · intro w hw
      change w ∈ s'.compared at hw
      rw [hcompared] at hw
      cases hw
  · rw [if_neg hall]
    change wp (selectAmong X P.check (accs.insertionSort CandidateLe).eraseReps) _ s' ↔ _
    rw [P.candidates_eq hperm]
    exact (P.selectAmong_iff hcompared).trans
      ⟨Or.inr, fun h => h.resolve_left hall⟩

/-- The poll with the node's own comparison, if that one is right about different answers. -/
def withOwnCheck (hchecked : ∀ peer1 peer2, P.answer peer1 ≠ P.answer peer2 →
    Returns (findWhoIsLying X peer1 peer2) (.ok (if P.answer peer1 = P.honest then .oneLying peer2
      else if P.answer peer2 = P.honest then .oneLying peer1 else .bothLying))) : Poll X :=
  { P with
    check := findWhoIsLying X
    checked := hchecked
    quiet := fun peer1 peer2 s => (LogFree.findWhoIsLying X peer1 peer2 s.compared s rfl).1 }

/-- The selection works exactly for decisive answers: with any comparison of two peers that is right
about different answers, and with the node's own one where it is. -/
theorem findAccumulator_selects_iff (sent : List (PeerId × NodeRequest)) (banned : List PeerId) :
    (P.Selects ⟨sent, banned, []⟩ ↔ P.Decisive) ∧
      ∀ hchecked, (P.withOwnCheck hchecked).Selects ⟨sent, banned, []⟩ ↔ P.Decisive := by
  refine ⟨P.selects_iff sent banned, fun hchecked => ?_⟩
  refine ((P.withOwnCheck hchecked).selects_iff sent banned).trans (or_congr_right ?_)
  exact ⟨fun h => ⟨h.one, h.differ, h.covered⟩, fun h => ⟨h.one, h.differ, h.covered⟩⟩

end Poll

/-! ## Small polls -/

namespace Sample

/-- Peers that answer as told. -/
def pollContext (peers : List PeerId) (answer : PeerId → Bytes) : Context where
  bitcoin := Bitcoin.sample
  rustreexo := rustreexo
  stumpEq := inferInstanceAs (DecidableEq (Nat × List Bytes))
  stump leaves roots := (leaves, roots)
  bestBlock := (3, hash 3)
  getBlockHash i := if i ≤ 3 then .ok (hash i) else .error .blockNotPresent
  getMtpByHeight _ := .ok 0
  peerIds := peers
  isArchive _ := true
  isManual _ := false
  otherRequests := false
  receive _ := peers.map fun peer => some (peer, .utreexoState (answer peer))

/-- A comparison that knows the answers. -/
def blame (answer : PeerId → Bytes) (peer1 peer2 : PeerId) : NodeM PeerCheck :=
  pure (if answer peer1 = stateOf 3 0 then .oneLying peer2
    else if answer peer2 = stateOf 3 0 then .oneLying peer1 else .bothLying)

def poll (peers : List PeerId) (answer : PeerId → Bytes) (hnodup : peers.Nodup)
    (hhonest : ∃ peer ∈ peers, answer peer = stateOf 3 0) : Poll (pollContext peers answer) where
  hash := hash 3
  height := 3
  answer := answer
  nodup := hnodup
  replies _ := by
    simp [statesOf, pollContext, Context.archivePeers, List.filterMap_map]
  honest := stateOf 3 0
  truth := stumpOf 3 0
  parsed := by
    have hparse : parseAcc (context 0 (fun _ => []) fun _ => []) (stateOf 3 0) = .ok (stumpOf 3 0) :=
      parse_stateOf (by decide) List.mem_cons_self
    exact hparse
  someHonest := by simpa [Context.archivePeers, pollContext] using hhonest
  check := blame answer
  checked _ _ _ := Returns.pure _
  quiet _ _ _ := rfl

/-- Different answers of three peers, the honest one being that of the peer `honest`. -/
def distinctAnswers (honest peer : PeerId) : Bytes :=
  if peer = honest then stateOf 3 0 else stateOf 3 (UInt8.ofNat peer)

/-- The third peer alone tells another state than the other two. -/
def lastDiffers (peer : PeerId) : Bytes := stateOf 3 (if peer = 3 then 1 else 0)

end Sample

open Sample in
/-- Of three different answers the last one is honest, and it is selected. -/
theorem findAccumulator_selects_last :
    ∃ (X : Context) (P : Poll X), X.archivePeers = [1, 2, 3] ∧ P.answer 3 = P.honest ∧
      P.Selects ⟨[], [], []⟩ := by
  let P := poll [1, 2, 3] (distinctAnswers 3) (by decide) ⟨3, by decide, rfl⟩
  refine ⟨_, P, rfl, rfl, (P.findAccumulator_selects_iff [] []).1.mpr (.inr ⟨?_, ?_, ?_⟩)⟩
  · decide +kernel
  · decide +kernel
  · decide +kernel

open Sample in
/-- If the first of three different answers is the honest one, the third one is compared with no
other: two candidates are left, and the assertion fails.  If two peers answer honestly, they are
compared with each other. -/
theorem findAccumulator_panics :
    (∃ (X : Context) (P : Poll X), X.archivePeers = [1, 2, 3] ∧ P.answer 1 = P.honest ∧
      (∀ p ∈ X.archivePeers, ∀ q ∈ X.archivePeers, P.answer p = P.answer q → p = q) ∧
      (findAccumulatorWith X P.check P.height P.hash ⟨[], [], []⟩).1 = .error .panic) ∧
    ∃ (X : Context) (P : Poll X), X.archivePeers = [1, 2, 3] ∧
      P.answer 1 = P.honest ∧ P.answer 2 = P.honest ∧ P.answer 3 ≠ P.honest ∧
      (1, 2) ∈ (findAccumulatorWith X P.check P.height P.hash ⟨[], [], []⟩).2.compared := by
  refine ⟨⟨_, poll [1, 2, 3] (distinctAnswers 1) (by decide) ⟨1, by decide, rfl⟩, rfl, rfl, ?_, ?_⟩,
    ⟨_, poll [1, 2, 3] lastDiffers (by decide) ⟨1, by decide, rfl⟩, rfl, rfl, rfl, ?_, ?_⟩⟩
  · decide +kernel
  · decide +kernel
  · decide +kernel
  · decide +kernel

end Floresta.Wire
