import Floresta.Lib.Ordered
import Floresta.Wire.SwiftSyncNode

/-!
# SwiftSyncSession — every block of a session counts once

Between its request and its contribution a block is in one place: in flight, in memory, or in memory
and with one worker.  The functions of the node move it from place to place, and for a moment it may
be in none; `Tracked lost` says which blocks that are.  Every turn of the loop starts and ends with
none lost, unless a block was found invalid and the session is over.
-/

namespace Floresta.Wire.SwiftSyncNode

open Fallible SwiftSync Prog

variable {W Stump : Type} {X : Context W} {hash : BlockHash} {req : InflightRequests}
  {block : Block}

/-! ## What a worker can report -/

/-- The errors after which `handle_invalid_block` asks for the block again or ends the session. -/
def concernsBlock : BlockValidationErrors → Bool
  | .invalidUtreexoProof | .blockExtendsAnOrphanChain | .blockDoesntExtendTip => false
  | _ => true

def Handled (e : BlockchainError) : Prop := (blockValidationErr e).any concernsBlock = true

section Errors

variable {B : Bitcoin}

theorem checkBlock_handled {params : ChainParams} {height : Nat} :
    Raises Handled (Consensus.checkBlock B params block height) := by
  refine Raises.bind (Raises.mapError ?_) fun _ _ => Raises.bind (Raises.require fun _ => rfl)
    fun _ _ => Raises.ok
  intro e _
  cases e <;> rfl

theorem totalOutValue_handled {tx : Transaction} :
    Raises Handled (Consensus.totalOutValue tx) := by
  refine Raises.foldlM ?_ _ _
  intro value out
  exact Raises.okOr fun _ => rfl

theorem checkTransactionContextFree_handled {tx : Transaction} :
    Raises Handled (Consensus.checkTransactionContextFree B tx) := by
  have hscript : ∀ (script : Script) (txid : Txid),
      Raises Handled (Consensus.validateScriptSize script txid) := by
    intro script txid
    unfold Consensus.validateScriptSize
    split
    · exact Raises.error rfl
    · exact Raises.ok
  refine Raises.bind (Raises.require fun _ => rfl) fun _ _ =>
    Raises.bind (Raises.require fun _ => rfl) fun _ _ =>
    Raises.bind (Raises.foldlM (fun _ i => ?_) _ _) fun _ _ =>
    Raises.bind (Raises.require fun _ => rfl) fun _ _ =>
    Raises.bind totalOutValue_handled fun _ _ =>
    Raises.bind (Raises.require fun _ => rfl) fun _ _ => Raises.ok
  exact Raises.bind (Raises.require fun _ => rfl) fun _ _ => hscript _ _

theorem verifyCoinbase_handled {tx : Transaction} :
    Raises Handled (Consensus.verifyCoinbase B tx) := by
  unfold Consensus.verifyCoinbase
  split
  · exact Raises.bind (Raises.require fun _ => rfl) fun _ _ => Raises.require fun _ => rfl
  · exact Raises.error rfl

theorem processBlockSwiftsync_handled [AddCommGroup W] {H : SipHash W} {params : ChainParams}
    {height : Nat} {hints : Finset UInt32} {salt : SipHashKeys} :
    Raises Handled (processBlockSwiftsync H B params block height hints salt) := by
  refine Raises.bind checkBlock_handled fun txids _ => Raises.bind ?_ fun _ _ => Raises.ok
  refine Raises.bind (Raises.require fun _ => rfl) fun _ _ =>
    Raises.bind (Raises.foldlM ?_ _ _) fun _ _ => Raises.ok
  rintro st ⟨⟨tx, txid⟩, n⟩
  unfold swiftTx
  dsimp only
  split
  · exact Raises.bind (Raises.require fun _ => rfl) fun _ _ =>
      Raises.bind verifyCoinbase_handled fun _ _ => Raises.bind totalOutValue_handled fun _ _ =>
      Raises.bind (Raises.require fun _ => rfl) fun _ _ => Raises.ok
  · exact Raises.bind checkTransactionContextFree_handled fun _ _ => Raises.ok

end Errors

/-! ## Where the blocks are -/

section Places

variable [AddCommGroup W]

/-- The delta is what processing a block of that height gave. -/
def Produced (X : Context W) (p : Nat × SwiftSyncDelta W) : Prop :=
  ∃ block hints, X.hashAt p.1 = some (X.bitcoin.blockHash block.header) ∧
    processBlockSwiftsync X.sipHash X.bitcoin X.params block p.1 hints X.salt = .ok p.2

/-- What the session has added up. -/
structure Tally (X : Context W) (deltas : List (Nat × SwiftSyncDelta W)) (s : Node W Stump) :
    Prop where
  nodup : (deltas.map Prod.fst).Nodup
  produced : ∀ p ∈ deltas, Produced X p
  agg : s.agg = (deltas.map fun p => p.2.aggregatorDelta).sum
  supply : s.supply =
    deltas.foldl (fun supply p => saturatingAmount supply p.2.unspentAmount) Amount.ZERO
  updates : s.updates = deltas.map fun p => (p.1, p.2.utreexoAdds)
  processed : s.processedBlocks = deltas.length

/-- The block is in flight, in memory, or in the list. -/
def Owned (lost : List BlockHash) (s : Node W Stump) (hash : BlockHash) : Prop :=
  .blocks hash ∈ s.inflight ∨ hash ∈ s.blocks ∨ hash ∈ lost

/-- The running workers are those of the blocks in memory that are being processed. -/
structure Staffed (X : Context W) (s : Node W Stump) : Prop where
  nodup : (s.workers.map Worker.blockHash).Nodup
  busy : ∀ w ∈ s.workers, X.hashAt w.blockHeight = some w.blockHash ∧
    ∃ entry, s.blocks.lookup w.blockHash = some entry ∧ entry.processingSince.isSome = true ∧
      entry.block = w.block
  owner : ∀ hash entry, s.blocks.lookup hash = some entry → entry.processingSince.isSome = true →
    ∃ w ∈ s.workers, w.blockHash = hash

/-- Every requested height that has not contributed has its block in one place. -/
structure Tracked (X : Context W) (lost : List BlockHash) (counted : List Nat) (s : Node W Stump) :
    Prop where
  last : s.lastBlockRequest ≤ X.stopHeight
  inside : ∀ h ∈ counted, 1 ≤ h ∧ h ≤ s.lastBlockRequest
  owned : ∀ hash, Owned lost s hash →
    ∃ h, 1 ≤ h ∧ h ≤ s.lastBlockRequest ∧ X.hashAt h = some hash ∧ h ∉ counted
  apart : ∀ hash, .blocks hash ∈ s.inflight → hash ∉ s.blocks
  lost_nodup : lost.Nodup
  lost_apart : ∀ hash ∈ lost, .blocks hash ∉ s.inflight ∧ hash ∉ s.blocks
  header : ∀ hash entry, s.blocks.lookup hash = some entry →
    X.bitcoin.blockHash entry.block.header = hash
  hints : ∀ h, 1 ≤ h → h ≤ X.stopHeight → h ∉ counted → s.hints h ≠ none
  staffed : s.abortHeight = none → Staffed X s
  complete : s.abortHeight = none → ∀ h, 1 ≤ h → h ≤ s.lastBlockRequest → h ∉ counted →
    ∃ hash, X.hashAt h = some hash ∧ Owned lost s hash
  assumed : s.assumed ≠ none → ∀ h, 1 ≤ h → h ≤ X.stopHeight → h ∈ counted

def Inv (X : Context W) (lost : List BlockHash) (deltas : List (Nat × SwiftSyncDelta W))
    (s : Node W Stump) : Prop :=
  Tally X deltas s ∧ Tracked X lost (deltas.map Prod.fst) s

def Logged : Fault → Prop
  | .error _ => True
  | _ => False

theorem Logged.error {fault : Fault} (h : Logged fault) : ∃ e, fault = .error e := by
  cases fault with
  | error e => exact ⟨e, rfl⟩
  | panic => exact h.elim
  | diverged => exact h.elim

/-- The program keeps the invariant, whatever was added up, and does not panic. -/
def Keeps (X : Context W) (lost : List BlockHash) {α : Type} (m : NodeM W Stump α) : Prop :=
  ∀ deltas, Within (Inv X lost deltas) Logged m fun _ => True

variable {lost : List BlockHash} {deltas : List (Nat × SwiftSyncDelta W)} {s s' : Node W Stump}

theorem Inv.peers (h : Inv X lost deltas s) (peers : HashMap PeerId LocalPeerView) (sends : Nat) :
    Inv X lost deltas { s with peers := peers, sends := sends } :=
  ⟨{ h.1 with }, { h.2 with staffed := fun ha => { h.2.staffed ha with } }⟩

/-- Requests, blocks and workers may change as long as the same blocks are somewhere. -/
theorem Inv.rearranged {lost' : List BlockHash} {inflight : HashMap InflightRequests (PeerId × Nat)}
    {blocks : HashMap BlockHash InflightBlock} {workers : List Worker} (h : Inv X lost deltas s)
    (howned : ∀ hash, Owned lost' { s with inflight, blocks, workers } hash ↔ Owned lost s hash)
    (hapart : ∀ hash, .blocks hash ∈ inflight → hash ∉ blocks) (hnodup : lost'.Nodup)
    (hlost : ∀ hash ∈ lost', .blocks hash ∉ inflight ∧ hash ∉ blocks)
    (hheader : ∀ hash entry, blocks.lookup hash = some entry →
      X.bitcoin.blockHash entry.block.header = hash)
    (hstaff : s.abortHeight = none → Staffed X { s with inflight, blocks, workers }) :
    Inv X lost' deltas { s with inflight, blocks, workers } := by
  refine ⟨{ h.1 with }, ⟨h.2.last, h.2.inside, fun hash hown => h.2.owned hash
    ((howned hash).mp hown), hapart, hnodup, hlost, hheader, h.2.hints, hstaff, ?_, h.2.assumed⟩⟩
  intro ha k hk hle hnot
  rcases h.2.complete ha k hk hle hnot with ⟨hash, hhash, hown⟩
  exact ⟨hash, hhash, (howned hash).mpr hown⟩

theorem Inv.moved {lost' : List BlockHash} {inflight : HashMap InflightRequests (PeerId × Nat)}
    (h : Inv X lost deltas s)
    (howned : ∀ hash, Owned lost' { s with inflight } hash ↔ Owned lost s hash)
    (hapart : ∀ hash, .blocks hash ∈ inflight → hash ∉ s.blocks) (hnodup : lost'.Nodup)
    (hlost : ∀ hash ∈ lost', .blocks hash ∉ inflight ∧ hash ∉ s.blocks) :
    Inv X lost' deltas { s with inflight } :=
  h.rearranged howned hapart hnodup hlost h.2.header fun ha => { h.2.staffed ha with }

theorem Inv.otherRequests (h : Inv X lost deltas s)
    {inflight : HashMap InflightRequests (PeerId × Nat)}
    (hsame : ∀ hash, .blocks hash ∈ inflight ↔ .blocks hash ∈ s.inflight) :
    Inv X lost deltas { s with inflight := inflight } := by
  refine h.moved (fun hash => or_congr_left (hsame hash))
    (fun hash hin => h.2.apart hash ((hsame hash).mp hin)) h.2.lost_nodup ?_
  intro hash hlost
  rw [hsame]
  exact h.2.lost_apart hash hlost

theorem Inv.found (h : Inv X (hash :: lost) deltas s) (value : PeerId × Nat) :
    Inv X lost deltas { s with inflight := s.inflight.insert (.blocks hash) value } := by
  have hmem : ∀ hash', .blocks hash' ∈ s.inflight.insert (.blocks hash) value ↔
      hash' = hash ∨ .blocks hash' ∈ s.inflight := by
    intro hash'
    simp [Finmap.mem_insert]
  have hnodup := List.nodup_cons.mp h.2.lost_nodup
  refine h.moved ?_ ?_ hnodup.2 ?_
  · intro hash'
    unfold Owned
    rw [hmem, List.mem_cons]
    tauto
  · intro hash' hin
    rcases (hmem hash').mp hin with rfl | hin
    · exact (h.2.lost_apart hash' (by simp)).2
    · exact h.2.apart hash' hin
  · intro hash' hlost
    have hold := h.2.lost_apart hash' (List.mem_cons_of_mem _ hlost)
    refine ⟨fun hin => ?_, hold.2⟩
    rcases (hmem hash').mp hin with rfl | hin
    · exact hnodup.1 hlost
    · exact hold.1 hin

theorem Inv.erased (h : Inv X lost deltas s) (hin : .blocks hash ∈ s.inflight) :
    Inv X (hash :: lost) deltas { s with inflight := s.inflight.erase (.blocks hash) } := by
  have hmem : ∀ hash', .blocks hash' ∈ s.inflight.erase (.blocks hash) ↔
      hash' ≠ hash ∧ .blocks hash' ∈ s.inflight := by
    intro hash'
    simp [Finmap.mem_erase]
  have hlost : hash ∉ lost := fun hl => (h.2.lost_apart hash hl).1 hin
  refine h.moved ?_ ?_ (List.nodup_cons.mpr ⟨hlost, h.2.lost_nodup⟩) ?_
  · intro hash'
    unfold Owned
    rw [hmem, List.mem_cons]
    by_cases heq : hash' = hash
    · subst heq
      simp [hin]
    · simp [heq]
  · intro hash' hin'
    exact h.2.apart hash' ((hmem hash').mp hin').2
  · intro hash' hl
    rcases List.mem_cons.mp hl with rfl | hl
    · exact ⟨fun hin' => ((hmem hash').mp hin').1 rfl, h.2.apart hash' hin⟩
    · exact ⟨fun hin' => (h.2.lost_apart hash' hl).1 ((hmem hash').mp hin').2,
        (h.2.lost_apart hash' hl).2⟩

end Places

/-! ## Requests -/

section Requests

variable [AddCommGroup W] (env : Env X Stump) {lost : List BlockHash}
variable {deltas : List (Nat × SwiftSyncDelta W)} {s : Node W Stump}

omit [AddCommGroup W] in
theorem sendToFastPeer_spec (s : Node W Stump) :
    wp (sendToFastPeer env) (fun r s' => s' = { s with sends := s.sends + 1 } ∧
      Outcome Logged (fun _ => True) r) s := by
  unfold sendToFastPeer
  simp only [wp_bind, wp_read, andThen_ok, wp_modify, id]
  split
  · exact ⟨rfl, trivial⟩
  · split
    · split
      · exact ⟨rfl, trivial⟩
      · exact ⟨rfl, trivial⟩
    · exact ⟨rfl, trivial⟩

theorem sendToPeer_keeps (peer : PeerId) : Keeps X lost (sendToPeer env peer) := by
  intro deltas s hs
  unfold sendToPeer
  simp only [wp_bind, wp_read, andThen_ok, id]
  split
  · split
    · exact ⟨hs, trivial⟩
    · simp only [wp_bind, wp_modify, andThen_ok]
      split
      · exact ⟨hs.peers s.peers _, trivial⟩
      · exact ⟨hs.peers s.peers _, trivial⟩
  · exact ⟨hs, trivial⟩

theorem Inv.inserted (h : Inv X lost deltas s) (hreq : isBlocks req = false)
    (value : PeerId × Nat) :
    Inv X lost deltas { s with inflight := s.inflight.insert req value } := by
  refine h.otherRequests fun hash => ?_
  rw [Finmap.mem_insert, or_iff_right]
  rintro rfl
  cases hreq

omit [AddCommGroup W] in
@[simp] theorem wp_insertRequest {req : InflightRequests} {peer : PeerId}
    {Q : Except Fault Unit → Node W Stump → Prop} :
    wp (insertRequest env req peer) Q s ↔
      Q (.ok ()) { s with inflight := s.inflight.insert req (peer, env.now) } := Iff.rfl

omit [AddCommGroup W] in
@[simp] theorem wp_eraseRequest {req : InflightRequests}
    {Q : Except Fault Unit → Node W Stump → Prop} :
    wp (eraseRequest req) Q s ↔ Q (.ok ()) { s with inflight := s.inflight.erase req } := Iff.rfl

/-- No request is taken out. -/
def Grows (s s' : Node W Stump) : Prop := ∀ req, req ∈ s.inflight → req ∈ s'.inflight

/-- Asking for lost blocks finds them all, or fails and changes nothing that matters. -/
theorem requestBlocks_spec {hashes : List BlockHash} (hs : Inv X (hashes ++ lost) deltas s) :
    wp (requestBlocks env hashes) (fun r s' =>
      (∃ u, r = .ok u ∧ Inv X lost deltas s' ∧ Grows s s') ∨
      ∃ e n, r = .error (.error e) ∧ s' = { s with sends := n }) s := by
  have hall : hashes.filter s.shouldRequest = hashes := by
    refine List.filter_eq_self.mpr ?_
    intro hash hmem
    have happart := hs.2.lost_apart hash (List.mem_append_left _ hmem)
    simp [Node.shouldRequest, happart]
  have hinsert : ∀ (peer : PeerId) (hashes : List BlockHash) (s : Node W Stump),
      Inv X (hashes ++ lost) deltas s →
      wp (hashes.forM fun hash => insertRequest env (.blocks hash) peer)
        (fun r s' => ∃ u, r = .ok u ∧ Inv X lost deltas s' ∧ Grows s s') s := by
    intro peer hashes
    induction hashes with
    | nil =>
      intro s hs
      exact ⟨(), rfl, hs, fun _ h => h⟩
    | cons hash hashes ih =>
      intro s hs
      refine wp_bind.mpr ?_
      simp only [wp_insertRequest, andThen_ok]
      refine wp_mono (ih _ (hs.found (peer, env.now))) ?_
      rintro r s' ⟨u, hr, hinv, hgrows⟩
      exact ⟨u, hr, hinv, fun req hreq => hgrows req (Finmap.mem_insert.mpr (.inr hreq))⟩
  unfold requestBlocks
  rw [wp_read_bind, hall]
  split
  · rename_i hnil
    subst hnil
    exact .inl ⟨(), rfl, hs, fun _ h => h⟩
  · refine wp_bind.mpr (wp_mono (sendToFastPeer_spec env s) ?_)
    rintro (fault | peer) s' ⟨rfl, hout⟩
    · rcases Logged.error hout with ⟨e, rfl⟩
      exact .inr ⟨e, _, rfl, rfl⟩
    · rw [andThen_ok]
      exact wp_mono (hinsert peer hashes _ (hs.peers s.peers _)) fun _ _ h => .inl h

theorem Inv.advanced (h : Inv X lost deltas s) (hle : s.lastBlockRequest + 1 ≤ X.stopHeight)
    (hhash : X.hashAt (s.lastBlockRequest + 1) = some hash) :
    Inv X (lost ++ [hash]) deltas { s with lastBlockRequest := s.lastBlockRequest + 1 } := by
  -- a block that is somewhere has an older height
  have hnew : ¬ Owned lost s hash := by
    intro hown
    rcases h.2.owned hash hown with ⟨k, -, hk, hk', -⟩
    have heq := X.hashAt_inj hk' hhash
    omega
  have howned : ∀ hash', Owned (lost ++ [hash])
      { s with lastBlockRequest := s.lastBlockRequest + 1 } hash' ↔
        Owned lost s hash' ∨ hash' = hash := by
    intro hash'
    unfold Owned
    rw [List.mem_append, List.mem_singleton]
    tauto
  refine ⟨{ h.1 with },
    ⟨hle, ?_, ?_, h.2.apart, ?_, ?_, h.2.header, h.2.hints, ?_, ?_, h.2.assumed⟩⟩
  · intro k hk
    exact ⟨(h.2.inside k hk).1, Nat.le_succ_of_le (h.2.inside k hk).2⟩
  · intro hash' hown
    rcases (howned hash').mp hown with hown | rfl
    · rcases h.2.owned hash' hown with ⟨k, hk, hle', hk', hnot⟩
      exact ⟨k, hk, Nat.le_succ_of_le hle', hk', hnot⟩
    · refine ⟨_, Nat.le_add_left 1 _, le_rfl, hhash, fun hin => ?_⟩
      exact absurd (h.2.inside _ hin).2 (Nat.not_succ_le_self _)
  · exact nodup_snoc h.2.lost_nodup fun hin => hnew (.inr (.inr hin))
  · refine forall_mem_snoc h.2.lost_apart ?_
    exact ⟨fun hin => hnew (.inl hin), fun hin => hnew (.inr (.inl hin))⟩
  · intro ha
    exact { h.2.staffed ha with }
  · intro ha k hk hle' hnot
    rcases Nat.lt_or_ge s.lastBlockRequest k with hlt | hge
    · have hlast : k = s.lastBlockRequest + 1 := Nat.le_antisymm hle' hlt
      exact ⟨hash, hlast ▸ hhash, (howned hash).mpr (.inr rfl)⟩
    · rcases h.2.complete ha k hk hge hnot with ⟨hash', hhash', hown⟩
      exact ⟨hash', hhash', (howned hash').mpr (.inl hown)⟩

/-- The loop over the next heights: their blocks are the ones that are nowhere. -/
theorem nextBlocks_spec (n : Nat) (hs : Inv X lost deltas s) :
    wp (nextBlocks env n lost) (fun r s' => ∃ hashes last, r = .ok hashes ∧
      s' = { s with lastBlockRequest := last } ∧ Inv X hashes deltas s') s := by
  induction n generalizing lost s with
  | zero => exact ⟨lost, s.lastBlockRequest, rfl, rfl, hs⟩
  | succ n ih =>
    unfold nextBlocks
    simp only [wp_bind, wp_read, andThen_ok]
    split
    · exact ⟨lost, s.lastBlockRequest, rfl, rfl, hs⟩
    · rename_i hle
      split
      · exact ⟨lost, s.lastBlockRequest, rfl, rfl, hs⟩
      · rename_i hash hhash
        rw [wp_modify_bind]
        refine wp_mono (ih (hs.advanced (Nat.le_of_not_lt hle) (env.getBlockHash_eq hhash))) ?_
        rintro r s' ⟨hashes, last, hr, rfl, hinv⟩
        exact ⟨hashes, last, hr, rfl, hinv⟩

theorem refillBlockRequests_keeps : Keeps X [] (refillBlockRequests env) := by
  intro deltas s hs
  unfold refillBlockRequests
  rw [wp_read_bind]
  split
  · exact ⟨hs, trivial⟩
  · refine wp_bind.mpr (wp_mono (nextBlocks_spec env BLOCKS_PER_GETDATA hs) ?_)
    rintro r s1 ⟨hashes, last, rfl, rfl, hinv⟩
    rw [andThen_ok, wp_bind, wp_attempt]
    rw [← List.append_nil hashes] at hinv
    refine wp_mono (requestBlocks_spec env hinv) ?_
    rintro r s2 (⟨u, rfl, hfound, -⟩ | ⟨e, sends, rfl, rfl⟩)
    · exact ⟨hfound, trivial⟩
    · -- nothing was asked for, and the heights are given back
      exact ⟨hs.peers s.peers sends, trivial⟩

/-- The list after a request was taken out: it loses a block if it was for one. -/
def without (req : InflightRequests) (lost : List BlockHash) : List BlockHash :=
  match req with
  | .blocks hash => hash :: lost
  | _ => lost

theorem Inv.dropped (h : Inv X lost deltas s) (hreq : isBlocks req = false) :
    Inv X lost deltas { s with inflight := s.inflight.erase req } := by
  refine h.otherRequests fun hash => ?_
  rw [Finmap.mem_erase, and_iff_right]
  rintro rfl
  cases hreq

theorem Inv.without (h : Inv X lost deltas s) (hin : req ∈ s.inflight) :
    Inv X (without req lost) deltas { s with inflight := s.inflight.erase req } := by
  cases req with
  | blocks hash => exact h.erased hin
  | _ => exact h.dropped rfl

/-- What sending a request again leaves: the invariant, and all the other requests. -/
def Resent (X : Context W) (lost : List BlockHash) (deltas : List (Nat × SwiftSyncDelta W))
    (s : Node W Stump) {α : Type} (r : Except Fault α) (s' : Node W Stump) : Prop :=
  Inv X lost deltas s' ∧ Outcome Logged (fun _ => True) r ∧ Grows s s'

theorem sendAndInsert_spec (req : PeerId → InflightRequests)
    (hreq : ∀ peer, isBlocks (req peer) = false) (hs : Inv X lost deltas s) :
    wp (do
      let peer ← sendToFastPeer env
      insertRequest env (req peer) peer) (Resent X lost deltas s) s := by
  refine wp_bind.mpr (wp_mono (sendToFastPeer_spec env s) ?_)
  rintro (fault | peer) s' ⟨rfl, hout⟩
  · exact ⟨hs.peers s.peers _, hout, fun _ h => h⟩
  · rw [andThen_ok]
    refine ⟨(hs.peers s.peers _).inserted (hreq peer) _, trivial, ?_⟩
    intro req' hreq'
    exact Finmap.mem_insert.mpr (.inr hreq')

theorem redoInflightRequest_other (hreq : isBlocks req = false)
    (hs : Inv X lost deltas s) :
    wp (redoInflightRequest env req) (Resent X lost deltas s) s := by
  have hdone : Resent X lost deltas s (.ok () : Except Fault Unit) s := ⟨hs, trivial, fun _ h => h⟩
  cases req with
  | blocks hash => cases hreq
  | utreexoProof hash =>
    change wp (_ >>= _) _ s
    rw [wp_read_bind]
    split
    · exact hdone
    · exact sendAndInsert_spec env (fun _ => _) (fun _ => rfl) hs
  | headers =>
    change wp (_ >>= _) _ s
    rw [wp_bind]
    cases env.getBlockLocator with
    | error e =>
      simp only [chain, Except.mapError, wp_lift]
      exact ⟨hs, trivial, fun _ h => h⟩
    | ok u =>
      simp only [chain, Except.mapError, wp_lift, andThen_ok]
      exact sendAndInsert_spec env (fun _ => _) (fun _ => rfl) hs
  | utreexoState peer => exact sendAndInsert_spec env .utreexoState (fun _ => rfl) hs
  | getFilters =>
    unfold redoInflightRequest
    dsimp only
    split
    · exact hdone
    · split
      · exact hdone
      · rename_i height _
        rw [wp_bind]
        cases height with
        | error e => exact ⟨hs, trivial, fun _ h => h⟩
        | ok height => exact sendAndInsert_spec env (fun _ => _) (fun _ => rfl) hs
  | connect peer => exact hdone
  | getAddresses => exact hdone

/-- Whether it can be sent again or not, the request is in the map afterwards if it was for a
block. -/
theorem retry_spec (retryError : Option WireError) (value : PeerId × Nat)
    (hs : Inv X (without req lost) deltas s) :
    wp (retry env retryError req value) (Resent X lost deltas s) s := by
  unfold retry
  rw [wp_bind, wp_attempt]
  cases hreq : isBlocks req with
  | true =>
    cases req with
    | blocks hash =>
      refine wp_mono (@requestBlocks_spec _ _ _ _ env lost _ _ [hash] hs) ?_
      rintro r s' (⟨u, rfl, hinv, hgrows⟩ | ⟨e, sends, rfl, rfl⟩)
      · exact ⟨hinv, trivial, hgrows⟩
      · refine ⟨(hs.peers s.peers sends).found value, trivial, ?_⟩
        intro req hin
        exact Finmap.mem_insert.mpr (.inr hin)
    | _ => cases hreq
  | false =>
    have hlost : without req lost = lost := by
      cases req with
      | blocks hash => cases hreq
      | _ => rfl
    rw [hlost] at hs
    refine wp_mono (redoInflightRequest_other env hreq hs) ?_
    rintro (fault | u) s' ⟨hinv, hout, hgrows⟩
    · rcases Logged.error hout with ⟨e, rfl⟩
      refine ⟨hinv.inserted hreq value, trivial, ?_⟩
      intro req' hin
      exact Finmap.mem_insert.mpr (.inr (hgrows req' hin))
    · exact ⟨hinv, trivial, hgrows⟩

end Requests

/-! ## Peers -/

section Peers

variable [AddCommGroup W] (env : Env X Stump) {lost : List BlockHash}
variable {deltas : List (Nat × SwiftSyncDelta W)} {s : Node W Stump}

omit [AddCommGroup W] in
theorem mem_requestsOf {peer : PeerId} {entry : InflightRequests × (PeerId × Nat)}
    (h : entry ∈ s.requestsOf env peer) : s.inflight.lookup entry.1 = some entry.2 := by
  rcases List.mem_filterMap.mp h with ⟨req, -, hreq⟩
  cases hlook : s.inflight.lookup req with
  | none =>
    rw [hlook] at hreq
    cases hreq
  | some value =>
    rw [hlook] at hreq
    dsimp only at hreq
    split at hreq
    · cases hreq
      exact hlook
    · cases hreq

omit [AddCommGroup W] in
theorem requestsOf_nodup (peer : PeerId) : ((s.requestsOf env peer).map Prod.fst).Nodup := by
  have hsub : ((s.requestsOf env peer).map Prod.fst).Sublist
      (env.requestOrder s.inflight.keys) := by
    unfold Node.requestsOf
    generalize env.requestOrder s.inflight.keys = order
    induction order with
    | nil => simp
    | cons req order ih =>
      rw [List.filterMap_cons]
      split
      · exact ih.cons _
      · rename_i entry hentry
        have hfst : entry.1 = req := by
          split at hentry
          · split at hentry
            · cases hentry
              rfl
            · cases hentry
          · cases hentry
        rw [List.map_cons, hfst]
        exact ih.cons_cons _
  exact hsub.nodup (env.requestOrder_nodup _)

/-- The loop of `handle_disconnection`: each request is still there when its turn comes. -/
theorem resendAll_spec (entries : List (InflightRequests × (PeerId × Nat)))
    (retryError : Option WireError) (hnodup : (entries.map Prod.fst).Nodup)
    (hin : ∀ entry ∈ entries, entry.1 ∈ s.inflight) (hs : Inv X lost deltas s) :
    wp (entries.foldlM (fun retryError entry => do
      eraseRequest entry.1
      retry env retryError entry.1 entry.2) retryError)
      (fun r s' => Inv X lost deltas s' ∧ Outcome Logged (fun _ => True) r) s := by
  induction entries generalizing s retryError with
  | nil => exact ⟨hs, trivial⟩
  | cons entry entries ih =>
    rw [List.map_cons, List.nodup_cons] at hnodup
    rw [List.foldlM_cons, wp_bind, wp_bind, wp_eraseRequest, andThen_ok]
    refine wp_mono (retry_spec env retryError entry.2 (hs.without (hin entry (by simp)))) ?_
    rintro (fault | retryError) s' ⟨hinv, hout, hgrows⟩
    · exact ⟨hinv, hout⟩
    · refine ih retryError hnodup.2 ?_ hinv
      intro other hother
      refine hgrows other.1 (Finmap.mem_erase.mpr ⟨?_, hin other (by simp [hother])⟩)
      rintro heq
      exact hnodup.1 (heq ▸ List.mem_map_of_mem hother)

theorem finishRetries_keeps (retryError : Option WireError) :
    Keeps X lost (finishRetries retryError : NodeM W Stump Unit) := by
  intro deltas s hs
  cases retryError with
  | none => exact ⟨hs, trivial⟩
  | some e => exact ⟨hs, trivial⟩

theorem handleDisconnection_keeps (peer : PeerId) : Keeps X lost (handleDisconnection env peer) := by
  intro deltas s hs
  unfold handleDisconnection
  rw [wp_modify_bind, wp_read_bind, wp_bind]
  have hpeers := hs.peers (s.peers.erase peer) s.sends
  refine wp_mono (resendAll_spec env _ none (requestsOf_nodup env peer) ?_ hpeers) ?_
  · intro entry hentry
    exact Finmap.mem_of_lookup_eq_some (mem_requestsOf env hentry)
  · rintro (fault | retryError) s' ⟨hinv, hout⟩
    · exact ⟨hinv, hout⟩
    · exact finishRetries_keeps retryError deltas s' hinv

theorem disconnectAndBan_keeps (peer : PeerId) : Keeps X lost (disconnectAndBan env peer) := by
  intro deltas s hs
  unfold disconnectAndBan
  rw [wp_read_bind]
  split
  · split
    · exact ⟨hs, trivial⟩
    · rw [wp_modify_bind]
      exact sendToPeer_keeps env peer deltas _ (hs.peers _ s.sends)
  · exact sendToPeer_keeps env peer deltas _ hs

theorem increaseBanscore_keeps (peer : PeerId) (factor : Nat) :
    Keeps X lost (increaseBanscore env peer factor) := by
  intro deltas s hs
  unfold increaseBanscore
  rw [wp_read_bind]
  split
  · exact ⟨hs, trivial⟩
  · split
    · exact ⟨hs, trivial⟩
    · rw [wp_modify_bind]
      split
      · exact disconnectAndBan_keeps env peer deltas _ (hs.peers _ s.sends)
      · exact ⟨hs.peers _ s.sends, trivial⟩

theorem disconnectUnresponsive_within (retryError : Option WireError) (peer : PeerId) :
    Within (Inv X lost deltas) (fun _ => False) (disconnectUnresponsive env retryError peer)
      fun _ => True := by
  refine Within.bind (sendToPeer_keeps env peer deltas).attempt fun _ _ =>
    Within.bind (handleDisconnection_keeps env peer deltas).attempt fun result hresult => ?_
  cases result with
  | ok u => exact Within.pure trivial
  | error fault =>
    rcases Logged.error hresult with ⟨e, rfl⟩
    exact Within.pure trivial

theorem handleTimeout_keeps (retryError : Option WireError) (req : InflightRequests) :
    Keeps X lost (handleTimeout env retryError req) := by
  intro deltas s hs
  unfold handleTimeout
  rw [wp_read_bind]
  split
  · exact ⟨hs, trivial⟩
  · rename_i peer time hlook
    split
    · exact ⟨hs, trivial⟩
    · have hlost := hs.without (Finmap.mem_of_lookup_eq_some hlook)
      have hretry : ∀ (e : Option WireError) (s' : Node W Stump),
          Inv X (without req lost) deltas s' →
          wp (retry env e req (peer, time))
            (fun r s' => Inv X lost deltas s' ∧ Outcome Logged (fun _ => True) r) s' := by
        intro e s' hs'
        exact wp_mono (retry_spec env e (peer, time) hs') fun r s'' h => ⟨h.1, h.2.1⟩
      rw [wp_bind, wp_eraseRequest, andThen_ok]
      split
      · exact hretry _ _ hlost
      · split
        · -- an unanswered request for addresses is dropped
          rename_i haddr
          have hreq : req = .getAddresses := by
            simp only [Bool.and_eq_true, decide_eq_true_eq] at haddr
            exact haddr.1
          subst hreq
          exact ⟨hlost, trivial⟩
        · split
          · exact Within.before (disconnectUnresponsive_within env retryError peer) hlost
              (fun _ _ h _ => h.elim) fun e s' _ hs' => hretry e s' hs'
          · exact hretry _ _ hlost

theorem checkForTimeout_keeps : Keeps X lost (checkForTimeout env) := by
  intro deltas
  refine Within.bind (P := fun _ => True) (Within.read fun _ _ => trivial) fun requests _ =>
    Within.bind (P := fun _ => True) ?_ fun e _ => finishRetries_keeps e deltas
  exact Within.foldlM (fun e req _ => handleTimeout_keeps env e req deltas) requests trivial

end Peers

/-! ## Workers -/

section Workers

variable [AddCommGroup W] (env : Env X Stump) {lost : List BlockHash}
variable {deltas : List (Nat × SwiftSyncDelta W)} {s : Node W Stump}

theorem Inv.height (h : Inv X lost deltas s) (hown : Owned lost s hash)
    {height : Nat} (hhash : X.hashAt height = some hash) :
    1 ≤ height ∧ height ≤ s.lastBlockRequest ∧ height ∉ deltas.map Prod.fst := by
  rcases h.2.owned hash hown with ⟨k, hk, hle, hk', hnot⟩
  rw [X.hashAt_inj hhash hk']
  exact ⟨hk, hle, hnot⟩

theorem Inv.staffedBy (h : Inv X lost deltas s) {height now : Nat}
    {entry : InflightBlock} (hhash : X.hashAt height = some hash)
    (hlook : s.blocks.lookup hash = some entry) (hwaits : entry.processingSince.isSome = false)
    (unspentIndexes : Finset UInt32) :
    Inv X lost deltas { s with
      blocks := s.blocks.insert hash { entry with processingSince := some now }
      workers := s.workers ++ [⟨hash, height, entry.block, unspentIndexes⟩] } := by
  have hin : hash ∈ s.blocks := Finmap.mem_of_lookup_eq_some hlook
  have hmem : ∀ hash', hash' ∈ s.blocks.insert hash { entry with processingSince := some now } ↔
      hash' ∈ s.blocks := by
    intro hash'
    rw [Finmap.mem_insert, or_iff_right_iff_imp]
    rintro rfl
    exact hin
  refine h.rearranged (fun hash' => or_congr_right (or_congr_left (hmem hash'))) ?_
    h.2.lost_nodup ?_ ?_ ?_
  · intro hash' hreq hblock
    exact h.2.apart hash' hreq ((hmem hash').mp hblock)
  · intro hash' hl
    exact ⟨(h.2.lost_apart hash' hl).1,
      fun hblock => (h.2.lost_apart hash' hl).2 ((hmem hash').mp hblock)⟩
  · intro hash' entry' hlook'
    rw [Ledger.lookup_insert_eq] at hlook'
    split at hlook'
    · rename_i heq
      cases hlook'
      exact heq ▸ h.2.header hash entry hlook
    · exact h.2.header hash' entry' hlook'
  · intro ha
    have hstaff := h.2.staffed ha
    -- no worker had the block, for it was waiting
    have hfree : ∀ w ∈ s.workers, w.blockHash ≠ hash := by
      intro w hw heq
      rcases (hstaff.busy w hw).2 with ⟨entry', hlook', hbusy, -⟩
      rw [heq, hlook] at hlook'
      cases hlook'
      rw [hwaits] at hbusy
      cases hbusy
    refine ⟨?_, ?_, ?_⟩
    · rw [List.map_append]
      refine nodup_snoc hstaff.nodup fun hin => ?_
      rcases List.mem_map.mp hin with ⟨w, hw, hwa⟩
      exact hfree w hw hwa
    · refine forall_mem_snoc (fun w hw => ?_) ?_
      · rcases hstaff.busy w hw with ⟨hheight, entry', hlook', hbusy⟩
        refine ⟨hheight, entry', ?_, hbusy⟩
        rw [Ledger.lookup_insert_eq, if_neg (hfree w hw)]
        exact hlook'
      · exact ⟨hhash, { entry with processingSince := some now }, Finmap.lookup_insert _, rfl, rfl⟩
    · intro hash' entry' hlook' hbusy
      rw [Ledger.lookup_insert_eq] at hlook'
      split at hlook'
      · rename_i heq
        exact ⟨_, List.mem_append_right _ (List.mem_singleton.mpr rfl), heq.symm⟩
      · rcases hstaff.owner hash' entry' hlook' hbusy with ⟨w, hw, heq⟩
        exact ⟨w, List.mem_append_left _ hw, heq⟩

theorem startProcessingSwiftsync_keeps {height : Nat}
    (hhash : X.hashAt height = some hash) :
    Keeps X lost (startProcessingSwiftsync env hash height) := by
  intro deltas s hs
  unfold startProcessingSwiftsync
  rw [wp_read_bind]
  split
  · exact ⟨hs, trivial⟩
  · rename_i entry hlook
    split
    · exact ⟨hs, trivial⟩
    · rename_i hwaits
      have hin : hash ∈ s.blocks := Finmap.mem_of_lookup_eq_some hlook
      rcases hs.height (.inr (.inl hin)) hhash with ⟨hlow, hle, hnot⟩
      have hhints := hs.2.hints height hlow (hle.trans hs.2.last) hnot
      split
      · rename_i hnone
        exact absurd hnone hhints
      · rename_i unspentIndexes _
        exact ⟨hs.staffedBy hhash hlook (by simpa using hwaits) unspentIndexes, trivial⟩

theorem pumpSwiftsync_keeps : Keeps X lost (pumpSwiftsync env) := by
  intro deltas s hs
  unfold pumpSwiftsync
  rw [wp_read_bind]
  split
  · exact ⟨hs, trivial⟩
  · dsimp only
    split
    · exact ⟨hs, trivial⟩
    · refine Within.forM _ ?_ s hs
      intro hash _
      refine Within.bind (P := fun height => ∀ k, height = some k → X.hashAt k = some hash)
        (Within.lift ?_) ?_
      · cases hheight : env.getBlockHeight hash with
        | error e => exact trivial
        | ok height =>
          intro k hk
          exact env.getBlockHeight_eq (hheight.trans (congrArg Except.ok hk))
      · intro height hheight
        cases height with
        | none => exact Within.fail trivial
        | some k => exact startProcessingSwiftsync_keeps env (hheight k rfl) deltas

theorem mem_eraseIdx_iff {α β : Type} {f : α → β} {l : List α} (hnodup : (l.map f).Nodup) {i : Nat}
    {a : α} (ha : l[i]? = some a) (b : α) : b ∈ l.eraseIdx i ↔ b ∈ l ∧ f b ≠ f a := by
  rcases List.getElem?_eq_some_iff.mp ha with ⟨hi, hget⟩
  have hsplit : l = l.take i ++ a :: l.drop (i + 1) := by
    rw [← hget, List.getElem_cons_drop, List.take_append_drop]
  rw [List.eraseIdx_eq_take_drop_succ]
  generalize l.take i = front at hsplit ⊢
  generalize l.drop (i + 1) = back at hsplit ⊢
  subst hsplit
  simp only [List.map_append, List.map_cons, List.nodup_append, List.nodup_cons,
    List.mem_cons, List.mem_append, List.mem_map] at hnodup ⊢
  rcases hnodup with ⟨-, ⟨hback, -⟩, hfront⟩
  constructor
  · rintro (hb | hb)
    · exact ⟨.inl hb, hfront _ ⟨b, hb, rfl⟩ _ (.inl rfl)⟩
    · exact ⟨.inr (.inr hb), fun heq => hback ⟨b, hb, heq⟩⟩
  · rintro ⟨hb | rfl | hb, hne⟩
    · exact .inl hb
    · exact absurd rfl hne
    · exact .inr hb

/-- A running worker has its block; taken from it the block is in no place. -/
theorem Inv.taken (h : Inv X [] deltas s) (ha : s.abortHeight = none) {i : Nat} {w : Worker}
    (hw : s.workers[i]? = some w) :
    ∃ entry, s.blocks.lookup w.blockHash = some entry ∧ entry.processingSince.isSome = true ∧
      entry.block = w.block ∧ X.hashAt w.blockHeight = some w.blockHash ∧
      Inv X [w.blockHash] deltas { s with
        workers := s.workers.eraseIdx i
        blocks := s.blocks.erase w.blockHash } := by
  have hstaff := h.2.staffed ha
  have hworker : w ∈ s.workers := List.mem_of_getElem? hw
  rcases hstaff.busy w hworker with ⟨hhash, entry, hlook, hbusy, hblock⟩
  have hin : w.blockHash ∈ s.blocks := Finmap.mem_of_lookup_eq_some hlook
  have hmem : ∀ hash, hash ∈ s.blocks.erase w.blockHash ↔ hash ≠ w.blockHash ∧ hash ∈ s.blocks :=
    fun hash => Finmap.mem_erase
  have howned : ∀ hash, Owned [w.blockHash] { s with
      workers := s.workers.eraseIdx i
      blocks := s.blocks.erase w.blockHash } hash ↔ Owned [] s hash := by
    intro hash
    unfold Owned
    rw [hmem, List.mem_singleton]
    by_cases heq : hash = w.blockHash
    · simp [heq, hin]
    · simp [heq]
  -- the other workers have other blocks
  have hother : ∀ w', w' ∈ s.workers.eraseIdx i ↔ w' ∈ s.workers ∧ w'.blockHash ≠ w.blockHash :=
    mem_eraseIdx_iff hstaff.nodup hw
  refine ⟨entry, hlook, hbusy, hblock, hhash,
    h.rearranged howned ?_ (List.nodup_singleton _) ?_ ?_ ?_⟩
  · intro hash hreq hblock'
    exact h.2.apart hash hreq ((hmem hash).mp hblock').2
  · intro hash hl
    rw [List.mem_singleton.mp hl]
    exact ⟨fun hreq => h.2.apart _ hreq hin, fun hblock' => ((hmem _).mp hblock').1 rfl⟩
  · intro hash entry' hlook'
    rw [Ledger.lookup_erase_eq] at hlook'
    split at hlook'
    · cases hlook'
    · exact h.2.header hash entry' hlook'
  · intro _
    refine ⟨?_, ?_, ?_⟩
    · exact hstaff.nodup.sublist ((List.eraseIdx_sublist _ _).map _)
    · intro w' hw'
      rcases (hother w').mp hw' with ⟨hmem', hne⟩
      rcases hstaff.busy w' hmem' with ⟨hhash', entry', hlook', hrest⟩
      refine ⟨hhash', entry', ?_, hrest⟩
      rw [Ledger.lookup_erase_eq, if_neg hne]
      exact hlook'
    · intro hash entry' hlook' hbusy'
      rw [Ledger.lookup_erase_eq] at hlook'
      split at hlook'
      · cases hlook'
      · rename_i hne
        rcases hstaff.owner hash entry' hlook' hbusy' with ⟨w', hw', heq⟩
        exact ⟨w', (hother w').mpr ⟨hw', heq ▸ hne⟩, heq⟩

theorem Inv.contributed {height : Nat} {delta : SwiftSyncDelta W}
    (h : Inv X [hash] deltas s) (hhash : X.hashAt height = some hash)
    (hproduced : Produced X (height, delta)) :
    Inv X [] (deltas ++ [(height, delta)])
      { s.contribute height delta with processedBlocks := s.processedBlocks + 1 } := by
  rcases h.height (.inr (.inr (List.mem_singleton.mpr rfl))) hhash with ⟨hlow, hle, hnot⟩
  have hcounted : (deltas ++ [(height, delta)]).map Prod.fst = deltas.map Prod.fst ++ [height] := by
    rw [List.map_append, List.map_singleton]
  have hmem : ∀ k, k ∈ (deltas ++ [(height, delta)]).map Prod.fst ↔
      k ∈ deltas.map Prod.fst ∨ k = height := by
    intro k
    rw [hcounted, List.mem_append, List.mem_singleton]
  refine ⟨⟨?_, ?_, ?_, ?_, ?_, ?_⟩, ⟨h.2.last, ?_, ?_, h.2.apart, List.nodup_nil, by simp,
    h.2.header, ?_, ?_, ?_, ?_⟩⟩
  · rw [hcounted]
    exact nodup_snoc h.1.nodup hnot
  · exact forall_mem_snoc h.1.produced hproduced
  · simp [Node.contribute, h.1.agg]
  · simp [Node.contribute, h.1.supply]
  · simp [Node.contribute, h.1.updates]
  · simp [h.1.processed]
  · intro k hk
    rcases (hmem k).mp hk with hk | rfl
    · exact h.2.inside k hk
    · exact ⟨hlow, hle⟩
  · intro hash' hown
    have hold : Owned [hash] s hash' := by
      rcases hown with hin | hin | hin
      · exact .inl hin
      · exact .inr (.inl hin)
      · cases hin
    rcases h.2.owned hash' hold with ⟨k, hk, hle', hk', hnot'⟩
    refine ⟨k, hk, hle', hk', fun hin => ?_⟩
    rcases (hmem k).mp hin with hin | rfl
    · exact hnot' hin
    · -- the block itself is in no place any more
      have heq : hash' = hash := Option.some.inj (hk'.symm.trans hhash)
      have hlost := h.2.lost_apart hash (List.mem_singleton.mpr rfl)
      rcases hown with hin' | hin' | hin'
      · exact hlost.1 (heq ▸ hin')
      · exact hlost.2 (heq ▸ hin')
      · cases hin'
  · intro k hk hle' hin
    have hne : k ≠ height := fun heq => hin ((hmem k).mpr (.inr heq))
    simp only [Node.contribute, Function.update_of_ne hne]
    exact h.2.hints k hk hle' fun hold => hin ((hmem k).mpr (.inl hold))
  · intro ha
    exact { h.2.staffed ha with }
  · intro ha k hk hle' hin
    rcases h.2.complete ha k hk hle' fun hold => hin ((hmem k).mpr (.inl hold)) with
      ⟨hash', hhash', hown⟩
    refine ⟨hash', hhash', ?_⟩
    rcases hown with hown | hown | hown
    · exact .inl hown
    · exact .inr (.inl hown)
    · rw [List.mem_singleton.mp hown] at hhash'
      exact absurd ((hmem k).mpr (.inr (X.hashAt_inj hhash' hhash))) hin
  · intro hassumed k hk hle'
    exact (hmem k).mpr (.inl (h.2.assumed hassumed k hk hle'))

theorem Inv.aborted (h : Inv X lost deltas s) (height : Nat) (invalidated : List BlockHash) :
    Inv X [] deltas { s with abortHeight := some height, invalidated := invalidated } := by
  refine ⟨{ h.1 with },
    ⟨h.2.last, h.2.inside, ?_, h.2.apart, List.nodup_nil, by simp, h.2.header, h.2.hints,
      fun ha => ?_, fun ha => ?_, h.2.assumed⟩⟩
  · intro hash hown
    refine h.2.owned hash ?_
    rcases hown with hin | hin | hin
    · exact .inl hin
    · exact .inr (.inl hin)
    · cases hin
  · cases ha
  · cases ha

/-- A height that is requested and has not contributed leaves room for another contribution. -/
theorem Inv.room {height : Nat} (h : Inv X [hash] deltas s)
    (hhash : X.hashAt height = some hash) : s.processedBlocks < X.stopHeight := by
  rcases h.height (.inr (.inr (List.mem_singleton.mpr rfl))) hhash with ⟨hlow, hle, hnot⟩
  have hsub : (height :: deltas.map Prod.fst) ⊆ List.range' 1 X.stopHeight := by
    intro k hk
    have hlast := h.2.last
    rw [List.mem_range'_1]
    rcases List.mem_cons.mp hk with rfl | hk
    · omega
    · have hinside := h.2.inside k hk
      omega
  have hnodup : (height :: deltas.map Prod.fst).Nodup := List.nodup_cons.mpr ⟨hnot, h.1.nodup⟩
  have hlen := (hnodup.subperm hsub).length_le
  rw [List.length_cons, List.length_map, List.length_range'] at hlen
  rw [h.1.processed]
  omega

theorem banForBlock_keeps (peer : PeerId) : Keeps X lost (banForBlock env peer) := by
  intro deltas
  exact Within.bind (disconnectAndBan_keeps env peer deltas) fun _ _ => Within.fail trivial

/-- An error that concerns the block asks for it again or ends the session. -/
theorem handleInvalidBlock_spec {header : BlockHeader} {e : BlockchainError} (he : Handled e)
    (height : Nat) (peer : PeerId) (hs : Inv X [X.bitcoin.blockHash header] deltas s) :
    wp (handleInvalidBlock env e header height peer)
      (fun r s' => Inv X [] deltas s' ∧ Outcome Logged (fun _ => True) r) s := by
  have hretry : wp (do
      insertRequest env (.blocks (X.bitcoin.blockHash header)) peer
      banForBlock env peer)
      (fun r s' => Inv X [] deltas s' ∧ Outcome Logged (fun _ => True) r) s := by
    rw [wp_bind, wp_insertRequest, andThen_ok]
    exact banForBlock_keeps env peer deltas _ (hs.found _)
  have habort : wp (do
      Prog.modify fun s : Node W Stump => { s with
        abortHeight := some height
        invalidated := s.invalidated ++ [X.bitcoin.blockHash header] }
      banForBlock env peer)
      (fun r s' => Inv X [] deltas s' ∧ Outcome Logged (fun _ => True) r) s := by
    rw [wp_modify_bind]
    exact banForBlock_keeps env peer deltas _ (hs.aborted height _)
  unfold handleInvalidBlock
  unfold Handled at he
  dsimp only
  cases hv : blockValidationErr e with
  | none =>
    rw [hv] at he
    cases he
  | some v =>
    rw [hv] at he
    cases v with
    | badMerkleRoot => exact hretry
    | badWitnessCommitment => exact hretry
    | invalidUtreexoProof => cases he
    | blockExtendsAnOrphanChain => cases he
    | blockDoesntExtendTip => cases he
    | _ => exact habort

end Workers

/-! ## Turns of the loop -/

section Turns

variable [AddCommGroup W] (env : Env X Stump)
variable {deltas : List (Nat × SwiftSyncDelta W)} {s : Node W Stump}

/-- No block is in no place. -/
def Sound (X : Context W) (s : Node W Stump) : Prop := ∃ deltas, Inv X [] deltas s

/-- The program keeps the session sound and does not panic. -/
def Safe (X : Context W) {α : Type} (m : NodeM W Stump α) : Prop :=
  Within (Sound X) Logged m fun _ => True

theorem Keeps.safe {α : Type} {m : NodeM W Stump α} (h : Keeps X [] m) : Safe X m := by
  rintro s ⟨deltas, hs⟩
  refine wp_mono (h deltas s hs) ?_
  rintro r s' ⟨hs', hout⟩
  exact ⟨⟨deltas, hs'⟩, hout⟩

theorem Safe.tryAndLog {m : NodeM W Stump Unit} (h : Safe X m) : Safe X (tryAndLog m) := by
  refine Within.bind h.attempt fun result hresult => ?_
  cases result with
  | ok u => exact Within.pure trivial
  | error fault =>
    rcases Logged.error hresult with ⟨e, rfl⟩
    exact Within.pure trivial

/-- The notification of a worker: its block contributes, is asked for again, or ends the session. -/
theorem handleWorker_safe (i : Nat) : Safe X (handleWorker env i) := by
  rintro s ⟨deltas, hs⟩
  unfold handleWorker
  rw [wp_read_bind]
  split
  · exact ⟨⟨deltas, hs⟩, trivial⟩
  · rename_i w hw
    rw [wp_modify_bind, wp_bind]
    suffices hnotified : wp (handleWorkerNotification env
        (processBlockSwiftsync X.sipHash X.bitcoin X.params w.block w.blockHeight w.unspentIndexes
          X.salt) w.blockHash w.blockHeight)
        (fun r s' => Sound X s' ∧ Outcome Logged (fun _ => True) r)
        { s with workers := s.workers.eraseIdx i } by
      refine wp_mono hnotified ?_
      rintro (fault | u) s' ⟨hs', hout⟩
      · exact ⟨hs', hout⟩
      · exact (pumpSwiftsync_keeps env).safe s' hs'
    unfold handleWorkerNotification
    rw [wp_read_bind]
    split
    · -- after the end of the session the result is ignored
      rename_i haborted
      have hsome : s.abortHeight ≠ none := Option.isSome_iff_ne_none.mp haborted
      exact ⟨⟨deltas, { hs.1 with }, { hs.2 with staffed := fun ha => absurd ha hsome }⟩, trivial⟩
    · rename_i hrunning
      have ha : s.abortHeight = none := by
        simpa [Node.wasAborted] using hrunning
      rcases hs.taken ha hw with ⟨entry, hlook, hbusy, hblock, hhash, htaken⟩
      have hheader : X.bitcoin.blockHash entry.block.header = w.blockHash :=
        hs.2.header _ entry hlook
      simp only [id, hlook, wp_bind, wp_modify, andThen_ok]
      cases hresult : processBlockSwiftsync X.sipHash X.bitcoin X.params w.block w.blockHeight
          w.unspentIndexes X.salt with
      | ok delta =>
        have hproduced : Produced X (w.blockHeight, delta) :=
          ⟨w.block, w.unspentIndexes, by rw [← hblock, hheader]; exact hhash, hresult⟩
        have hroom : s.processedBlocks < X.stopHeight := htaken.room hhash
        simp only [assertThat, hbusy, hroom, if_true, wp_bind, wp_modify, andThen_ok, wp_pure]
        exact (refillBlockRequests_keeps env).safe _ ⟨_, htaken.contributed hhash hproduced⟩
      | error e =>
        have hhandled := processBlockSwiftsync_handled e hresult
        refine wp_mono (handleInvalidBlock_spec env hhandled w.blockHeight entry.peer
          (by rw [hheader]; exact htaken)) ?_
        rintro r s' ⟨hs', hout⟩
        exact ⟨⟨deltas, hs'⟩, hout⟩

theorem Inv.arrived (h : Inv X [] deltas s)
    (hhash : X.bitcoin.blockHash block.header = hash) (hin : .blocks hash ∈ s.inflight)
    (peer : PeerId) :
    Inv X [] deltas { s with
      inflight := s.inflight.erase (.blocks hash)
      blocks := s.blocks.insert hash ⟨peer, block, none⟩ } := by
  have hout : hash ∉ s.blocks := h.2.apart hash hin
  have hreq : ∀ hash', .blocks hash' ∈ s.inflight.erase (.blocks hash) ↔
      hash' ≠ hash ∧ .blocks hash' ∈ s.inflight := by
    intro hash'
    simp [Finmap.mem_erase]
  have hmem : ∀ hash', hash' ∈ s.blocks.insert hash ⟨peer, block, none⟩ ↔
      hash' = hash ∨ hash' ∈ s.blocks := fun hash' => Finmap.mem_insert
  have howned : ∀ hash', Owned [] { s with
      inflight := s.inflight.erase (.blocks hash)
      blocks := s.blocks.insert hash ⟨peer, block, none⟩ } hash' ↔ Owned [] s hash' := by
    intro hash'
    unfold Owned
    rw [hreq, hmem]
    by_cases heq : hash' = hash
    · simp [heq, hin]
    · simp [heq]
  have hlook : ∀ hash' entry, (s.blocks.insert hash ⟨peer, block, none⟩).lookup hash' = some entry →
      (hash' = hash ∧ entry = ⟨peer, block, none⟩) ∨ s.blocks.lookup hash' = some entry := by
    intro hash' entry hentry
    rw [Ledger.lookup_insert_eq] at hentry
    split at hentry
    · cases hentry
      exact .inl ⟨‹_›, rfl⟩
    · exact .inr hentry
  refine h.rearranged howned ?_ List.nodup_nil (by simp) ?_ ?_
  · intro hash' hin' hblock
    rcases (hreq hash').mp hin' with ⟨hne, hin'⟩
    rcases (hmem hash').mp hblock with heq | hblock
    · exact hne heq
    · exact h.2.apart hash' hin' hblock
  · intro hash' entry hentry
    rcases hlook hash' entry hentry with ⟨rfl, rfl⟩ | hentry
    · exact hhash
    · exact h.2.header hash' entry hentry
  · intro ha
    have hstaff := h.2.staffed ha
    refine ⟨hstaff.nodup, ?_, ?_⟩
    · intro w hw
      rcases hstaff.busy w hw with ⟨hheight, entry, hentry, hrest⟩
      refine ⟨hheight, entry, ?_, hrest⟩
      rw [Ledger.lookup_insert_eq, if_neg]
      · exact hentry
      · rintro heq
        exact hout (heq ▸ Finmap.mem_of_lookup_eq_some hentry)
    · intro hash' entry hentry hbusy
      rcases hlook hash' entry hentry with ⟨-, rfl⟩ | hentry
      · cases hbusy
      · exact hstaff.owner hash' entry hentry hbusy

theorem handleBlock_safe (peer : PeerId) (block : Block) : Safe X (handleBlock env peer block) := by
  rintro s ⟨deltas, hs⟩
  unfold handleBlock
  rw [wp_read_bind]
  dsimp only [id]
  split
  · exact ⟨⟨deltas, hs⟩, trivial⟩
  · split
    · exact (increaseBanscore_keeps env peer 5).safe s ⟨deltas, hs⟩
    · rename_i hasked
      rw [wp_modify_bind]
      have hhash : X.bitcoin.blockHash block.header = X.bitcoin.blockHash block.header := rfl
      have harrived := hs.arrived hhash (Classical.not_not.mp hasked) peer
      exact Within.bind (pumpSwiftsync_keeps env).safe
        (fun _ _ => (refillBlockRequests_keeps env).safe) _ ⟨deltas, harrived⟩

theorem handlePeerMessage_safe (peer : PeerId) (message : PeerMessage) :
    Safe X (handlePeerMessage env peer message) := by
  intro s hs
  unfold handlePeerMessage
  rw [wp_read_bind]
  cases message with
  | disconnected => exact (handleDisconnection_keeps env peer).safe.tryAndLog s hs
  | block block =>
    refine Within.ite (fun _ => handleBlock_safe env peer block) (fun _ => ?_) s hs
    exact Within.pure trivial
  | utreexoProof =>
    refine Within.ite (fun _ => (increaseBanscore_keeps env peer 5).safe) (fun _ => ?_) s hs
    exact Within.pure trivial
  | utreexoState =>
    refine Within.ite (fun _ => (increaseBanscore_keeps env peer 5).safe) (fun _ => ?_) s hs
    exact Within.pure trivial
  | other => exact ⟨hs, trivial⟩

theorem Inv.finished (h : Inv X [] deltas s) (ha : s.abortHeight = none)
    (hlast : s.lastBlockRequest = X.stopHeight) (hnone : s.unprocessedBlocks = 0) :
    ∀ k, 1 ≤ k → k ≤ X.stopHeight → k ∈ deltas.map Prod.fst := by
  intro k hk hle
  by_contra hnot
  rcases h.2.complete ha k hk (hlast ▸ hle) hnot with ⟨hash, -, hown⟩
  unfold Node.unprocessedBlocks at hnone
  rcases Nat.add_eq_zero_iff.mp hnone with ⟨hblocks, hrequests⟩
  rcases hown with hin | hin | hin
  · have hmem : InflightRequests.blocks hash ∈
        s.inflight.keys.filter fun req => isBlocks req :=
      Finset.mem_filter.mpr ⟨Finmap.mem_keys.mpr hin, rfl⟩
    rw [Finset.card_eq_zero.mp hrequests] at hmem
    cases hmem
  · have hmem : hash ∈ s.blocks.keys := Finmap.mem_keys.mpr hin
    rw [Finset.card_eq_zero.mp hblocks] at hmem
    cases hmem
  · cases hin

theorem maintenanceTick_safe [DecidableEq W] : Safe X (maintenanceTick env) := by
  rintro s ⟨deltas, hs⟩
  unfold maintenanceTick
  rw [wp_read_bind]
  split
  · exact ⟨⟨deltas, hs⟩, trivial⟩
  · rename_i hgo
    have ha : s.abortHeight = none := by
      simp only [Bool.or_eq_true, not_or, Node.wasAborted] at hgo
      simpa using hgo.2
    unfold swiftSyncFinished
    rw [wp_read_bind]
    split
    · -- all heights have contributed; the two final checks come next
      rename_i acc hfinished
      have hdone : s.lastBlockRequest = X.stopHeight ∧ s.unprocessedBlocks = 0 := by
        split at hfinished
        · cases hfinished
        · rename_i hboth
          simpa using hboth
      have hall := hs.finished ha hdone.1 hdone.2
      suffices hstop : wp (handleStopHeightReached env acc)
          (fun r s' => Sound X s' ∧ Outcome Logged (fun _ => True) r) s by
        rw [wp_bind]
        refine wp_mono hstop ?_
        rintro (fault | u) s' ⟨hs', hout⟩
        · exact ⟨hs', hout⟩
        · exact ⟨hs', trivial⟩
      unfold handleStopHeightReached
      rw [wp_read_bind]
      split
      · exact ⟨⟨deltas, hs.aborted _ s.invalidated⟩, trivial⟩
      · rw [wp_bind]
        unfold chain
        rw [wp_lift]
        cases env.getBlockHash X.stopHeight with
        | error e => exact ⟨⟨deltas, hs⟩, trivial⟩
        | ok tipHash =>
          simp only [Except.mapError, andThen_ok, wp_bind, wp_lift]
          cases env.markChainAsAssumed with
          | error e => exact ⟨⟨deltas, hs⟩, trivial⟩
          | ok u =>
            exact ⟨⟨deltas, { hs.1 with }, { hs.2 with
              staffed := fun ha => { hs.2.staffed ha with }
              assumed := fun _ => hall }⟩, trivial⟩
    · refine Within.bind (checkForTimeout_keeps env).safe.tryAndLog (fun _ _ => ?_) s ⟨deltas, hs⟩
      refine Within.ite (fun _ => Within.pure trivial) fun _ => ?_
      exact Within.bind (pumpSwiftsync_keeps env).safe.tryAndLog fun _ _ =>
        Within.bind (refillBlockRequests_keeps env).safe fun _ _ => Within.pure trivial

theorem setRequest_keeps (req : InflightRequests) (value : Option (PeerId × Nat)) :
    Keeps X [] (setRequest req value : NodeM W Stump Unit) := by
  intro deltas s hs
  unfold setRequest
  split
  · exact ⟨hs, trivial⟩
  · rename_i hreq
    rw [Bool.not_eq_true] at hreq
    cases value with
    | none => exact ⟨hs.dropped hreq, trivial⟩
    | some value => exact ⟨hs.inserted hreq value, trivial⟩

theorem turn_safe [DecidableEq W] (event : Event) : Safe X (turn env event) := by
  cases event with
  | tick => exact maintenanceTick_safe env
  | message peer message =>
    exact Within.bind (handlePeerMessage_safe env peer message).tryAndLog fun _ _ =>
      Within.pure trivial
  | worker i =>
    exact Within.bind (handleWorker_safe env i).tryAndLog fun _ _ => Within.pure trivial
  | peer peer view =>
    rintro s ⟨deltas, hs⟩
    exact ⟨⟨deltas, hs.peers _ s.sends⟩, trivial⟩
  | request req value =>
    exact Within.bind (setRequest_keeps req value).safe fun _ _ => Within.pure trivial

theorem Started.sound (h : Started X s) : Sound X s := by
  have hnone : ∀ hash, ¬ Owned [] s hash := by
    rintro hash (hin | hin | hin)
    · exact h.noRequests hash hin
    · rw [h.blocks] at hin
      exact Finmap.notMem_empty hin
    · cases hin
  refine ⟨[], ⟨List.nodup_nil, by simp, h.agg, h.supply, h.updates, h.processedBlocks⟩,
    ⟨?_, by simp, fun hash hown => absurd hown (hnone hash),
      fun hash hin => absurd hin (h.noRequests hash), List.nodup_nil, by simp, ?_, ?_, ?_, ?_, ?_⟩⟩
  · rw [h.lastBlockRequest]
    exact Nat.zero_le _
  · intro hash entry hlook
    rw [h.blocks, Finmap.lookup_empty] at hlook
    cases hlook
  · intro k hk hle _
    exact h.hints k hk hle
  · intro _
    refine ⟨by simp [h.workers], by simp [h.workers], ?_⟩
    intro hash entry hlook
    rw [h.blocks, Finmap.lookup_empty] at hlook
    cases hlook
  · intro _ k hk hle
    rw [h.lastBlockRequest] at hle
    omega
  · intro hassumed
    exact absurd h.assumed hassumed

omit env in
theorem reachable_next [DecidableEq W] {env : Env X Stump} {event : Event} {control : LoopControl}
    (h : Reachable X .continue s) (hcontrol : (turn env event s).1 = .ok control) :
    Reachable X control (turn env event s).2 :=
  h.turn env event (Prod.ext hcontrol rfl)

theorem Reachable.sound [DecidableEq W] {control : LoopControl} (h : Reachable X control s) :
    Sound X s := by
  induction h with
  | start hstart => exact hstart.sound
  | turn h env event hturn ih =>
    have hsafe := (turn_safe env event _ ih).1
    rw [hturn] at hsafe
    exact hsafe
  | failed h env event hturn ih =>
    have hsafe := (turn_safe env event _ ih).1
    rw [hturn] at hsafe
    exact hsafe

end Turns

section Main

variable [AddCommGroup W] {s : Node W Stump}

def Node.workersOf (s : Node W Stump) (hash : BlockHash) : Nat :=
  (s.workers.map Worker.blockHash).count hash

/-- The block is in flight, or in memory and waits, or in memory and with exactly one worker. -/
def InOnePlace (s : Node W Stump) (hash : BlockHash) : Prop :=
  (.blocks hash ∈ s.inflight ∧ hash ∉ s.blocks ∧ s.workersOf hash = 0) ∨
  (.blocks hash ∉ s.inflight ∧ hash ∈ s.blocks ∧
    s.workersOf hash = if s.waits hash then 0 else 1)

theorem Inv.inOnePlace {deltas : List (Nat × SwiftSyncDelta W)} (h : Inv X [] deltas s)
    (ha : s.abortHeight = none) (hown : Owned [] s hash) :
    InOnePlace s hash := by
  have hstaff := h.2.staffed ha
  have hidle : (∀ entry, s.blocks.lookup hash = some entry →
      entry.processingSince.isSome = false) → s.workersOf hash = 0 := by
    intro hwaits
    refine List.count_eq_zero.mpr ?_
    intro hmem
    rcases List.mem_map.mp hmem with ⟨w, hw, rfl⟩
    rcases (hstaff.busy w hw).2 with ⟨entry, hlook, hbusy, -⟩
    rw [hwaits entry hlook] at hbusy
    cases hbusy
  rcases hown with hin | hin | hin
  · have hout := h.2.apart hash hin
    refine .inl ⟨hin, hout, hidle ?_⟩
    intro entry hlook
    exact absurd (Finmap.mem_of_lookup_eq_some hlook) hout
  · refine .inr ⟨fun hreq => h.2.apart hash hreq hin, hin, ?_⟩
    rcases Finmap.mem_iff.mp hin with ⟨entry, hlook⟩
    cases hsince : entry.processingSince with
    | none =>
      have hwaits : s.waits hash = true := by simp [Node.waits, hlook, hsince]
      rw [if_pos hwaits]
      refine hidle ?_
      intro entry' hlook'
      rw [hlook] at hlook'
      cases hlook'
      simp [hsince]
    | some time =>
      have hwaits : s.waits hash = false := by simp [Node.waits, hlook, hsince]
      rw [hwaits, if_neg (by simp)]
      rcases hstaff.owner hash entry hlook (by simp [hsince]) with ⟨w, hw, heq⟩
      exact List.count_eq_one_of_mem hstaff.nodup (heq ▸ List.mem_map_of_mem hw)
  · cases hin

/-- **A session counts every block once.**  In every state of every session the aggregator, the
supply and the updates of the accumulator are made of one delta for each of some heights, none
twice; unless a block was found invalid, the block of every other requested height is in one place;
and the chain is assumed only when every height has contributed exactly once. -/
theorem swiftsync_counts_once [DecidableEq W] {control : LoopControl}
    (h : Reachable X control s) :
    ∃ deltas : List (Nat × SwiftSyncDelta W), (deltas.map Prod.fst).Nodup ∧
      (∀ p ∈ deltas, 1 ≤ p.1 ∧ p.1 ≤ X.stopHeight ∧ Produced X p) ∧
      s.agg = (deltas.map fun p => p.2.aggregatorDelta).sum ∧
      s.supply = deltas.foldl (fun supply p => saturatingAmount supply p.2.unspentAmount)
        Amount.ZERO ∧
      s.updates = deltas.map (fun p => (p.1, p.2.utreexoAdds)) ∧
      (s.abortHeight = none → ∀ k, 1 ≤ k → k ≤ s.lastBlockRequest → k ∉ deltas.map Prod.fst →
        ∃ hash, X.hashAt k = some hash ∧ InOnePlace s hash) ∧
      (s.assumed ≠ none → (deltas.map Prod.fst).Perm (List.range' 1 X.stopHeight)) := by
  rcases h.sound with ⟨deltas, hinv⟩
  have hinside : ∀ k ∈ deltas.map Prod.fst, 1 ≤ k ∧ k ≤ X.stopHeight := fun k hk =>
    ⟨(hinv.2.inside k hk).1, (hinv.2.inside k hk).2.trans hinv.2.last⟩
  refine ⟨deltas, hinv.1.nodup, ?_, hinv.1.agg, hinv.1.supply, hinv.1.updates, ?_, ?_⟩
  · intro p hp
    have hp' := hinside p.1 (List.mem_map_of_mem hp)
    exact ⟨hp'.1, hp'.2, hinv.1.produced p hp⟩
  · intro ha k hk hle hnot
    rcases hinv.2.complete ha k hk hle hnot with ⟨hash, hhash, hown⟩
    exact ⟨hash, hhash, hinv.inOnePlace ha hown⟩
  · intro hassumed
    refine (List.perm_ext_iff_of_nodup hinv.1.nodup List.nodup_range').mpr ?_
    intro k
    rw [List.mem_range'_1]
    constructor
    · intro hk
      have hk' := hinside k hk
      omega
    · rintro ⟨hk, hle⟩
      exact hinv.2.assumed hassumed k hk (by omega)

end Main

/-! ### A session of two blocks, and one with an invalid block -/

namespace Sample

open Consensus.Sample Udata.Sample SwiftSync.Sample Ordered

def tagged (tag n : Nat) : Nat := tag + 4 * n

def requestCode : InflightRequests → Nat
  | .headers => 0
  | .getFilters => 1
  | .getAddresses => 2
  | .utreexoState peer => tagged 3 peer
  | .blocks hash => tagged 4 hash.toNat
  | .connect peer => tagged 5 peer
  | .utreexoProof hash => tagged 6 hash.toNat

theorem tagged_inj {tag n m : Nat} (h : tagged tag n = tagged tag m) : n = m := by
  unfold tagged at h
  omega

theorem requestCode_injective : Function.Injective requestCode := by
  intro a b heq
  cases a <;> cases b <;>
    first
    | rfl
    | exact congrArg InflightRequests.utreexoState (tagged_inj heq)
    | exact congrArg InflightRequests.blocks (BitVec.eq_of_toNat_eq (tagged_inj heq))
    | exact congrArg InflightRequests.connect (tagged_inj heq)
    | exact congrArg InflightRequests.utreexoProof (BitVec.eq_of_toNat_eq (tagged_inj heq))
    | (simp only [requestCode, tagged] at heq; omega)

def blankHash : SipHash ℤ where
  Engine := Unit
  withKeys _ _ := ()
  input _ _ := ()
  finish _ := 0

def hashAt (hashes : List BlockHash) : Nat → Option BlockHash
  | 0 => none
  | h + 1 => hashes[h]?

section

variable (hashes : List BlockHash) (hnodup : hashes.Nodup)

/-- A session over the blocks with the given hashes. -/
def context : Context ℤ where
  sipHash := blankHash
  bitcoin := Bitcoin.sample
  params := regtest
  salt := keys
  stopHeight := hashes.length
  maxWorkers := 4
  maxBanscore := 100
  hashAt := hashAt hashes
  hashAt_inj := by
    rintro (_ | h) (_ | h') hash hh hh'
    · rfl
    · cases hh
    · cases hh'
    · exact congrArg Nat.succ ((List.getElem?_inj (List.getElem?_eq_some_iff.mp hh).1 hnodup).mp
        (hh.trans hh'.symm))

def env : Env (context hashes hnodup) Nat where
  now := 0
  killed := false
  assumeStale := false
  choosePeer _ := some 7
  channelOpen _ := true
  getBlockHash h := okOr (hashAt hashes h) .blockNotPresent
  getBlockHash_eq := okOr_eq_ok.mp
  getBlockHeight hash := .ok ((hashes.idxOf? hash).map Nat.succ)
  getBlockHeight_eq := by
    intro h hash hh
    rcases Option.map_eq_some_iff.mp (Except.ok.inj hh) with ⟨i, hi, rfl⟩
    rcases List.idxOf?_eq_some_iff.mp hi with ⟨hlt, heq, -⟩
    exact List.getElem?_eq_some_iff.mpr ⟨hlt, by simpa using heq⟩
  getBlockLocator := .ok ()
  markChainAsAssumed := .ok ()
  hasUtreexoPeers := false
  hasCompactFiltersPeer := false
  filtersHeight := none
  stumpDone := some 0
  blockOrder := ordered BitVec.toNat fun _ _ => BitVec.eq_of_toNat_eq
  blockOrder_nodup := ordered_nodup
  mem_blockOrder := mem_ordered
  requestOrder := ordered requestCode requestCode_injective
  requestOrder_nodup := ordered_nodup
  mem_requestOrder := mem_ordered

def start : Node ℤ Nat where
  peers := Finmap.singleton 7 ⟨.outboundFullRelay, .ready, 0⟩
  inflight := ∅
  blocks := ∅
  workers := []
  hints := fun _ => some {0}
  lastBlockRequest := 0
  agg := 0
  supply := Amount.ZERO
  processedBlocks := 0
  abortHeight := none
  updates := []
  invalidated := []
  assumed := none
  sends := 0

theorem start_started : Started (context hashes hnodup) start where
  noRequests _ := Finmap.notMem_empty
  blocks := rfl
  workers := rfl
  hints _ _ _ h := by cases h
  lastBlockRequest := rfl
  agg := rfl
  supply := rfl
  processedBlocks := rfl
  abortHeight := rfl
  updates := rfl
  assumed := rfl

/-- Turns of the node, as long as its loop goes on. -/
def takeTurns : List Event → Node ℤ Nat → Option (Node ℤ Nat)
  | [], s => some s
  | event :: events, s =>
    match turn (env hashes hnodup) event s with
    | (.ok .continue, s') => takeTurns events s'
    | _ => none

variable {hashes hnodup}

theorem takeTurns_reachable {events : List Event} {s s' : Node ℤ Nat}
    (h : Reachable (context hashes hnodup) .continue s)
    (hrun : takeTurns hashes hnodup events s = some s') :
    Reachable (context hashes hnodup) .continue s' := by
  induction events generalizing s with
  | nil =>
    cases hrun
    exact h
  | cons event events ih =>
    rw [takeTurns] at hrun
    split at hrun
    · rename_i hturn
      exact ih (h.turn _ _ hturn) hrun
    · cases hrun

theorem exists_turns {events : List Event} {test : Node ℤ Nat → Bool}
    (h : (takeTurns hashes hnodup events start).any test = true) :
    ∃ s, Reachable (context hashes hnodup) .continue s ∧ test s = true := by
  rcases (Option.any_eq_true _ _).mp h with ⟨s, hs, htest⟩
  exact ⟨s, takeTurns_reachable (.start (start_started hashes hnodup)) hs, htest⟩

end

def minted : List BlockHash :=
  [Bitcoin.sample.blockHash (mintBlock 1).header, Bitcoin.sample.blockHash (mintBlock 2).header]

theorem minted_nodup : minted.Nodup := by decide +kernel

/-- A block whose only transaction is no coinbase. -/
def strayTx : Transaction := spend ⟨1, 0⟩ 60

def strayBlock : Block :=
  ⟨{ header 1 with merkleRoot := Bitcoin.sample.computeTxid strayTx }, [strayTx]⟩

def stray : BlockHash := Bitcoin.sample.blockHash strayBlock.header

end Sample

open Sample SwiftSync.Sample in
/-- The second block arrives first, and the first one twice; the session succeeds. -/
theorem swiftsync_counts_once_two :
    ∃ s : Node ℤ Nat, Reachable (context minted minted_nodup) .break s ∧ s.assumed ≠ none ∧
      s.supply = Amount.fromSat 150 ∧
      ∃ deltas : List (Nat × SwiftSyncDelta ℤ), (deltas.map Prod.fst).Perm [1, 2] ∧
        s.supply = deltas.foldl (fun supply p => saturatingAmount supply p.2.unspentAmount)
          Amount.ZERO ∧
        s.updates = deltas.map fun p => (p.1, p.2.utreexoAdds) := by
  have hrun : (takeTurns minted minted_nodup [.tick, .message 7 (.block (mintBlock 2)),
      .message 7 (.block (mintBlock 1)), .message 7 (.block (mintBlock 1)), .worker 0, .worker 0]
      start).any (fun s =>
        let last := turn (env minted minted_nodup) .tick s
        decide (last.1 = .ok .break ∧ last.2.assumed ≠ none ∧
          last.2.supply = Amount.fromSat 150)) = true := by
    decide +kernel
  rcases exists_turns hrun with ⟨s, hs, htest⟩
  rcases of_decide_eq_true htest with ⟨hlast, hassumed, hsupply⟩
  have hreach := reachable_next hs hlast
  rcases swiftsync_counts_once hreach with ⟨deltas, -, -, -, htotal, hupdates, -, hall⟩
  exact ⟨_, hreach, hassumed, hsupply, deltas, hall hassumed, htotal, hupdates⟩

open Sample in
/-- After a block was found invalid its height was requested, has not contributed, and its block is
neither in flight nor in memory nor with a worker. -/
theorem swiftsync_loses_invalid_block :
    ∃ s : Node ℤ Nat, Reachable (context [stray] (List.nodup_singleton _)) .continue s ∧
      s.lastBlockRequest = 1 ∧ s.updates = [] ∧
      .blocks stray ∉ s.inflight ∧ stray ∉ s.blocks ∧ s.workersOf stray = 0 := by
  have hrun : (takeTurns [stray] (List.nodup_singleton _)
      [.tick, .message 7 (.block strayBlock), .worker 0] start).any (fun s =>
        decide (s.lastBlockRequest = 1 ∧ s.updates = [] ∧
          .blocks stray ∉ s.inflight ∧ stray ∉ s.blocks ∧ s.workersOf stray = 0)) = true := by
    decide +kernel
  rcases exists_turns hrun with ⟨s, hs, htest⟩
  exact ⟨s, hs, of_decide_eq_true htest⟩

end Floresta.Wire.SwiftSyncNode
