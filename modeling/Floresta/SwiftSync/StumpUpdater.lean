import Floresta.Consensus.Block
import Floresta.Lib.Ledger
import Mathlib.Algebra.BigOperators.Group.Finset.Basic
import Mathlib.Data.Finset.Sort

/-!
# StumpUpdater — accumulator updates out of order

Blocks are processed in any order, and the additions of each of them are sent to a task that applies
them in height order: an update waits until all lower ones have been applied.  Waiting updates have
their empty hashes left out.

Whatever the order in which the updates of `n` consecutive heights arrive and are drained, the
accumulator is at every moment the one of the heights applied so far, and at the end the one of all
of them (`stumpUpdater_sequential`).
-/

namespace Floresta

open Fallible

/-! ## Sparse additions -/

/-- The additions of a block without its empty hashes. -/
structure SparseUtreexoAdds where
  /-- the number of additions, empty ones included -/
  len : Nat
  /-- the other hashes, with their positions in the full list -/
  entries : List (UInt32 × NodeHash)

namespace SparseUtreexoAdds

def utxoCount (adds : SparseUtreexoAdds) : Nat := adds.entries.length

/-- The entry of a hash at a position; positions are `u32`. -/
def entry (p : NodeHash × Nat) : Except String (UInt32 × NodeHash) :=
  if p.2 < 2 ^ 32 then .ok (UInt32.ofNat p.2, p.1)
  else .error "block output positions fit in a u32"

def new (dense : List NodeHash) : Except String SparseUtreexoAdds := do
  let entries ← (dense.zipIdx.filter fun p => p.1 ≠ .empty).mapM entry
  pure ⟨dense.length, entries⟩

def intoDense (adds : SparseUtreexoAdds) : List NodeHash :=
  adds.entries.foldl (fun dense p => dense.set p.1.toNat p.2) (List.replicate adds.len .empty)

theorem mapM_entry {l : List (NodeHash × Nat)} {entries : List (UInt32 × NodeHash)}
    (h : l.mapM entry = .ok entries) :
    entries = l.map (fun p => (UInt32.ofNat p.2, p.1)) ∧ ∀ p ∈ l, p.2 < 2 ^ 32 := by
  induction l generalizing entries with
  | nil =>
    simp only [List.mapM_nil, pure_eq_ok] at h
    exact ⟨h.symm, fun p hp => by cases hp⟩
  | cons p l ih =>
    simp only [List.mapM_cons, bind_eq_ok, pure_eq_ok] at h
    rcases h with ⟨e, he, rest, hrest, rfl⟩
    rcases ih hrest with ⟨rfl, hbound⟩
    have hp : p.2 < 2 ^ 32 ∧ e = (UInt32.ofNat p.2, p.1) := by
      unfold entry at he
      split at he
      · exact ⟨by assumption, (Except.ok.inj he).symm⟩
      · cases he
    refine ⟨by rw [hp.2]; rfl, ?_⟩
    intro q hq
    rcases List.mem_cons.mp hq with rfl | hq
    · exact hp.1
    · exact hbound q hq

/-- Writing the other hashes of a list over empty ones, after what stands before them. -/
theorem foldl_set_zipIdx (dense done : List NodeHash) :
    ((dense.zipIdx done.length).filter fun p => p.1 ≠ .empty).foldl
      (fun acc p => acc.set p.2 p.1) (done ++ List.replicate dense.length .empty) =
      done ++ dense := by
  induction dense generalizing done with
  | nil => rfl
  | cons hash dense ih =>
    have hnext := ih (done ++ [hash])
    rw [List.length_append, List.length_singleton, List.append_assoc, List.append_assoc] at hnext
    have hset : (done ++ List.replicate (dense.length + 1) NodeHash.empty).set done.length hash =
        done ++ ([hash] ++ List.replicate dense.length .empty) := by
      rw [List.replicate_succ, List.set_append_right _ _ (Nat.le_refl _), Nat.sub_self]
      rfl
    rw [List.zipIdx_cons]
    by_cases hempty : hash = .empty
    · subst hempty
      rw [List.filter_cons_of_neg (by simp)]
      exact hnext
    · rw [List.filter_cons_of_pos (by simpa using hempty), List.foldl_cons]
      change List.foldl _ ((done ++ List.replicate (dense.length + 1) NodeHash.empty).set
        done.length hash) _ = _
      rw [hset]
      exact hnext

theorem intoDense_new {dense : List NodeHash} {adds : SparseUtreexoAdds}
    (h : new dense = .ok adds) :
    adds.intoDense = dense ∧ adds.utxoCount = dense.countP (· ≠ .empty) := by
  simp only [new, bind_eq_ok, pure_eq_ok] at h
  rcases h with ⟨entries, hentries, rfl⟩
  rcases mapM_entry hentries with ⟨rfl, hbound⟩
  constructor
  · have hfold := foldl_set_zipIdx dense []
    simp only [intoDense, List.foldl_map]
    refine Eq.trans (List.foldl_ext _ _ _ ?_) hfold
    intro acc p hp
    rw [UInt32.toNat_ofNat_of_lt' (hbound p hp)]
  · calc (List.map (fun p => (UInt32.ofNat p.2, p.1))
          (dense.zipIdx.filter fun p => p.1 ≠ NodeHash.empty)).length
        = dense.zipIdx.countP fun p => p.1 ≠ NodeHash.empty := by
          rw [List.length_map, List.countP_eq_length_filter]
      _ = (dense.zipIdx.map Prod.fst).countP (· ≠ NodeHash.empty) := by
          rw [List.countP_map]
          rfl
      _ = dense.countP (· ≠ NodeHash.empty) := by rw [List.zipIdx_map_fst]

end SparseUtreexoAdds

/-! ## The updater -/

structure StumpUpdater (R : Rustreexo) where
  lastAcc : R.Stump
  lastHeight : Nat
  pendingUpdates : Ledger.Map Nat SparseUtreexoAdds
  cachedUtxos : Nat
  maxCachedUtxos : Nat

namespace StumpUpdater

variable {R : Rustreexo}

/-- `StumpUpdater::spawn`, up to the start of the task. -/
def spawn (initialAcc : R.Stump) (initialHeight stopHeight : Nat) :
    Except String (StumpUpdater R) := do
  require (initialHeight < stopHeight)
    "initial StumpUpdater height must be less than stop_height"
  pure ⟨initialAcc, initialHeight, ∅, 0, 0⟩

def queueUpdate (s : StumpUpdater R) (height : Nat) (update : SparseUtreexoAdds)
    (stopHeight : Nat) : Except String (StumpUpdater R) := do
  let lastHeight := s.lastHeight
  require (¬ (height ≤ lastHeight ∨ stopHeight < height))
    s!"got update height {height}, but last={lastHeight}, stop={stopHeight}"
  require (s.pendingUpdates.lookup height = none) s!"duplicate update data at height {height}"
  let cached := s.cachedUtxos + update.utxoCount
  pure { s with
    pendingUpdates := s.pendingUpdates.insert height update
    cachedUtxos := cached
    maxCachedUtxos := max s.maxCachedUtxos cached }

def firstEntry (M : Ledger.Map Nat SparseUtreexoAdds) : Option (Nat × SparseUtreexoAdds) := do
  let key ← (M.keys.sort (· ≤ ·)).head?
  let update ← M.lookup key
  pure (key, update)

/-- One round of the loop of `try_next`; nothing if it leaves the loop. -/
def applyNext (emptyProof : R.Proof) (s : StumpUpdater R) :
    Except String (Option (StumpUpdater R)) :=
  let nextHeight := (s.lastHeight + 1) % 2 ^ 32
  match firstEntry s.pendingUpdates with
  | some (key, adds) =>
    if key = nextHeight then do
      require (adds.utxoCount ≤ s.cachedUtxos) "attempt to subtract with overflow"
      let newAcc ← (R.modify s.lastAcc adds.intoDense [] emptyProof).mapError fun _ =>
        "addition-only stump modification cannot fail"
      pure (some { s with
        lastAcc := newAcc
        lastHeight := nextHeight
        pendingUpdates := s.pendingUpdates.erase key
        cachedUtxos := s.cachedUtxos - adds.utxoCount })
    else pure none
  | none => pure none

/-- The loop of `try_next`; it has a round for each pending update and one more. -/
def tryNextLoop (emptyProof : R.Proof) : Nat → StumpUpdater R → Except String (StumpUpdater R)
  | 0, _ => .error "more rounds than updates"
  | fuel + 1, s => do
      match ← applyNext emptyProof s with
      | some s' => tryNextLoop emptyProof fuel s'
      | none => pure s

def tryNext (emptyProof : R.Proof) (s : StumpUpdater R) : Except String (StumpUpdater R) :=
  tryNextLoop emptyProof (s.pendingUpdates.keys.card + 1) s

/-- The task: the messages are those that the channel gives before it is closed. -/
def run (emptyProof : R.Proof) (stopHeight : Nat) :
    List (Nat × SparseUtreexoAdds) → StumpUpdater R → Except String (Option R.Stump)
  | messages, s =>
    if s.lastHeight < stopHeight then
      match messages with
      | [] => pure none
      | (height, update) :: rest => do
          let s ← queueUpdate s height update stopHeight
          let s ← tryNext emptyProof s
          run emptyProof stopHeight rest s
    else pure (some s.lastAcc)

/-! ## The order of the updates -/

theorem firstEntry_cases (M : Ledger.Map Nat SparseUtreexoAdds) :
    (∃ key update, firstEntry M = some (key, update) ∧ M.lookup key = some update ∧
      ∀ k, M.lookup k ≠ none → key ≤ k) ∨
    (firstEntry M = none ∧ ∀ k, M.lookup k = none) := by
  have hmem : ∀ k, k ∈ M.keys.sort (· ≤ ·) ↔ M.lookup k ≠ none := by
    intro k
    rw [Finset.mem_sort, Finmap.mem_keys, ne_eq, Finmap.lookup_eq_none, not_not]
  have hsorted : (M.keys.sort (· ≤ ·)).Pairwise (· ≤ ·) := Finset.pairwise_sort _ _
  unfold firstEntry
  cases hkeys : M.keys.sort (· ≤ ·) with
  | nil =>
    right
    refine ⟨rfl, fun k => ?_⟩
    by_contra hk
    have hk' := (hmem k).mpr hk
    rw [hkeys] at hk'
    cases hk'
  | cons key rest =>
    left
    rw [hkeys] at hmem hsorted
    have hkey := (hmem key).mp List.mem_cons_self
    rcases Option.ne_none_iff_exists'.mp hkey with ⟨update, hupdate⟩
    refine ⟨key, update, ?_, hupdate, ?_⟩
    · simp [hupdate]
    · intro k hk
      rcases List.mem_cons.mp ((hmem k).mpr hk) with rfl | hrest
      · exact Nat.le_refl _
      · exact List.rel_of_pairwise_cons hsorted hrest

inductive Op
  | queue (height : Nat)
  | drain

/-- The heights that are queued, in their order. -/
def Op.queued : List Op → List Nat
  | [] => []
  | .queue height :: ops => height :: Op.queued ops
  | .drain :: ops => Op.queued ops

def exec (emptyProof : R.Proof) (stopHeight : Nat) (updates : Nat → SparseUtreexoAdds) :
    List Op → StumpUpdater R → Except String (StumpUpdater R)
  | [], s => .ok s
  | .queue height :: ops, s => do
      let s ← queueUpdate s height (updates height) stopHeight
      exec emptyProof stopHeight updates ops s
  | .drain :: ops, s => do
      let s ← tryNext emptyProof s
      exec emptyProof stopHeight updates ops s

/-- The additions of consecutive heights, one after the other. -/
def sequential (add : R.Stump → List NodeHash → R.Stump) (acc : R.Stump)
    (adds : Nat → List NodeHash) (start n : Nat) : R.Stump :=
  (List.range' (start + 1) n).foldl (fun acc height => add acc (adds height)) acc

/-- The hashes of an update that are not empty. -/
def leaves (adds : Nat → List NodeHash) (height : Nat) : Nat :=
  (adds height).countP (· ≠ .empty)

/-- The updates of the heights `queued` have arrived.  The accumulator is the one of the heights up
to the last, all of which have arrived; the others are waiting, and their hashes are counted. -/
structure Progress (add : R.Stump → List NodeHash → R.Stump) (acc : R.Stump)
    (adds : Nat → List NodeHash) (updates : Nat → SparseUtreexoAdds) (start stop : Nat)
    (queued : Finset Nat) (s : StumpUpdater R) : Prop where
  inside : ∀ h ∈ queued, start < h ∧ h ≤ stop
  low : start ≤ s.lastHeight
  high : s.lastHeight ≤ stop
  applied : ∀ h, start < h → h ≤ s.lastHeight → h ∈ queued
  pending : ∀ h, s.pendingUpdates.lookup h =
    if h ∈ queued ∧ s.lastHeight < h then some (updates h) else none
  lastAcc : s.lastAcc = sequential add acc adds start (s.lastHeight - start)
  cached : s.cachedUtxos = ∑ h ∈ queued with s.lastHeight < h, leaves adds h

section Order

variable {add : R.Stump → List NodeHash → R.Stump} {acc : R.Stump} {adds : Nat → List NodeHash}
  {updates : Nat → SparseUtreexoAdds} {start stop : Nat} {queued : Finset Nat} {s : StumpUpdater R}
  {emptyProof : R.Proof}

theorem Progress.notApplied (h : Progress add acc adds updates start stop queued s) {height : Nat}
    (hnew : height ∉ queued) (hlow : start < height) : s.lastHeight < height := by
  by_contra hle
  exact hnew (h.applied height hlow (Nat.le_of_not_lt hle))

theorem Progress.keys (h : Progress add acc adds updates start stop queued s) :
    s.pendingUpdates.keys = queued.filter (s.lastHeight < ·) := by
  ext k
  rw [Finmap.mem_keys, Finset.mem_filter, ← not_iff_not, ← Finmap.lookup_eq_none, h.pending k]
  split <;> simp_all

theorem queueUpdate_ok {height : Nat} {update : SparseUtreexoAdds} (hlast : s.lastHeight < height)
    (hhigh : height ≤ stop) (hfree : s.pendingUpdates.lookup height = none) :
    queueUpdate s height update stop = .ok { s with
      pendingUpdates := s.pendingUpdates.insert height update
      cachedUtxos := s.cachedUtxos + update.utxoCount
      maxCachedUtxos := max s.maxCachedUtxos (s.cachedUtxos + update.utxoCount) } := by
  simp only [queueUpdate, bind_eq_ok, require_eq_ok, pure_eq_ok]
  exact ⟨(), by omega, (), hfree, trivial⟩

theorem Progress.queue (h : Progress add acc adds updates start stop queued s) {height : Nat}
    (hnew : height ∉ queued) (hlow : start < height) (hhigh : height ≤ stop)
    (hupdate : SparseUtreexoAdds.new (adds height) = .ok (updates height)) :
    ∃ s', queueUpdate s height (updates height) stop = .ok s' ∧
      Progress add acc adds updates start stop (insert height queued) s' := by
  have hlast := h.notApplied hnew hlow
  have hfree : s.pendingUpdates.lookup height = none := by
    rw [h.pending height, if_neg fun hq => hnew hq.1]
  have hcount : (updates height).utxoCount = leaves adds height :=
    (SparseUtreexoAdds.intoDense_new hupdate).2
  refine ⟨_, queueUpdate_ok hlast hhigh hfree, ?_, h.low, h.high, ?_, ?_, h.lastAcc, ?_⟩
  · intro k hk
    rcases Finset.mem_insert.mp hk with rfl | hk
    · exact ⟨hlow, hhigh⟩
    · exact h.inside k hk
  · intro k hk hle
    exact Finset.mem_insert_of_mem (h.applied k hk hle)
  · intro k
    rw [Ledger.lookup_insert_eq]
    by_cases hk : k = height
    · subst hk
      rw [if_pos rfl, if_pos ⟨Finset.mem_insert_self .., hlast⟩]
    · rw [if_neg hk, h.pending k]
      simp only [Finset.mem_insert, hk, false_or]
  · change s.cachedUtxos + (updates height).utxoCount =
      ∑ k ∈ insert height queued with s.lastHeight < k, leaves adds k
    rw [Finset.filter_insert, if_pos hlast, Finset.sum_insert (by simp [hnew]), h.cached, hcount,
      Nat.add_comm]

theorem filter_next (hnext : s.lastHeight + 1 ∈ queued) :
    queued.filter (s.lastHeight < ·) =
      insert (s.lastHeight + 1) (queued.filter (s.lastHeight + 1 < ·)) := by
  ext k
  simp only [Finset.mem_filter, Finset.mem_insert]
  constructor
  · rintro ⟨hk, hlt⟩
    by_cases heq : k = s.lastHeight + 1
    · exact .inl heq
    · exact .inr ⟨hk, by omega⟩
  · rintro (rfl | ⟨hk, hlt⟩)
    · exact ⟨hnext, Nat.lt_succ_self _⟩
    · exact ⟨hk, by omega⟩

theorem applyNext_some {key : Nat} {update : SparseUtreexoAdds} {newAcc : R.Stump}
    (hfirst : firstEntry s.pendingUpdates = some (key, update))
    (hkey : key = (s.lastHeight + 1) % 2 ^ 32) (hfits : update.utxoCount ≤ s.cachedUtxos)
    (hmodify : R.modify s.lastAcc update.intoDense [] emptyProof = .ok newAcc) :
    applyNext emptyProof s = .ok (some { s with
      lastAcc := newAcc
      lastHeight := key
      pendingUpdates := s.pendingUpdates.erase key
      cachedUtxos := s.cachedUtxos - update.utxoCount }) := by
  simp only [applyNext, hfirst, ← hkey, if_true, hmodify, Except.mapError, bind_eq_ok,
    require_eq_ok, pure_eq_ok]
  exact ⟨(), hfits, newAcc, rfl, rfl⟩

/-- When all updates have arrived and nothing can be applied any more, everything is applied. -/
theorem Progress.complete (h : Progress add acc adds updates start stop queued s)
    (hall : ∀ k, start < k → k ≤ stop → k ∈ queued) (hnext : s.lastHeight + 1 ∉ queued) :
    s.lastHeight = stop ∧ s.lastAcc = sequential add acc adds start (stop - start) ∧
      s.pendingUpdates = ∅ ∧ s.cachedUtxos = 0 := by
  have hlow := h.low
  have hhigh := h.high
  have hstopped : s.lastHeight = stop := by
    by_contra hne
    exact hnext (hall _ (by omega) (by omega))
  have hnone : queued.filter (s.lastHeight < ·) = ∅ := by
    refine Finset.filter_eq_empty_iff.mpr fun k hk => ?_
    have hle := (h.inside k hk).2
    omega
  refine ⟨hstopped, ?_, ?_, ?_⟩
  · rw [h.lastAcc, hstopped]
  · refine Finmap.ext_lookup fun k => ?_
    rw [h.pending k, if_neg, Finmap.lookup_empty]
    rintro ⟨hk, hlt⟩
    exact Finset.filter_eq_empty_iff.mp hnone hk hlt
  · rw [h.cached, hnone, Finset.sum_empty]

variable (hadd : ∀ acc leaves, R.modify acc leaves [] emptyProof = .ok (add acc leaves))
  (hstop : stop < 2 ^ 32)
  (hupdates : ∀ h, start < h → h ≤ stop → SparseUtreexoAdds.new (adds h) = .ok (updates h))

include hadd hstop hupdates

section

variable (h : Progress add acc adds updates start stop queued s)

include h

theorem Progress.applyNext :
    (StumpUpdater.applyNext emptyProof s = .ok none ∧ s.lastHeight + 1 ∉ queued) ∨
    ∃ s', StumpUpdater.applyNext emptyProof s = .ok (some s') ∧
      Progress add acc adds updates start stop queued s' ∧ s'.lastHeight = s.lastHeight + 1 := by
  rcases firstEntry_cases s.pendingUpdates with ⟨key, update, hfirst, hkey, hmin⟩ | ⟨hfirst, hnone⟩
  · -- the first entry is a height that waits
    have hwaits : key ∈ queued ∧ s.lastHeight < key := by
      by_contra hno
      rw [h.pending key, if_neg hno] at hkey
      cases hkey
    have hupdate : update = updates key := by
      rw [h.pending key, if_pos hwaits] at hkey
      exact (Option.some.inj hkey).symm
    rcases h.inside key hwaits.1 with ⟨hlow, hhigh⟩
    have hnext : (s.lastHeight + 1) % 2 ^ 32 = s.lastHeight + 1 := Nat.mod_eq_of_lt (by omega)
    by_cases heq : key = s.lastHeight + 1
    · right
      rcases SparseUtreexoAdds.intoDense_new (hupdates key hlow hhigh) with ⟨hdense, hcount⟩
      have hsum : s.cachedUtxos = leaves adds key +
          ∑ k ∈ queued with key < k, leaves adds k := by
        rw [h.cached, filter_next (heq ▸ hwaits.1), Finset.sum_insert (by simp), heq]
      have hfits : update.utxoCount ≤ s.cachedUtxos := by
        rw [hupdate, hcount, hsum]
        exact Nat.le_add_right _ _
      refine ⟨_, applyNext_some hfirst (heq.trans hnext.symm) hfits (hadd _ _), ?_, heq⟩
      refine ⟨h.inside, Nat.le_of_lt hlow, hhigh, ?_, ?_, ?_, ?_⟩
      · intro k hk hle
        by_cases hke : k = key
        · rw [hke]
          exact hwaits.1
        · exact h.applied k hk (by change k ≤ key at hle; omega)
      · intro k
        change (s.pendingUpdates.erase key).lookup k = if k ∈ queued ∧ key < k then _ else _
        rw [Ledger.lookup_erase_eq, h.pending k]
        by_cases hke : k = key
        · rw [if_pos hke, if_neg (by omega)]
        · rw [if_neg hke]
          by_cases hk : k ∈ queued ∧ s.lastHeight < k
          · rw [if_pos hk, if_pos ⟨hk.1, by omega⟩]
          · rw [if_neg hk, if_neg fun hk' => hk ⟨hk'.1, by omega⟩]
      · change add s.lastAcc update.intoDense = sequential add acc adds start (key - start)
        have hcount : key - start = s.lastHeight - start + 1 := by
          have hle := h.low
          omega
        have hlast : start + 1 + (s.lastHeight - start) = key := by
          have hle := h.low
          omega
        rw [hupdate, hdense, h.lastAcc, hcount]
        unfold sequential
        rw [List.range'_1_concat, List.foldl_append, List.foldl_cons, List.foldl_nil, hlast]
      · change s.cachedUtxos - update.utxoCount = ∑ k ∈ queued with key < k, leaves adds k
        have hleaves : update.utxoCount = leaves adds key := by
          rw [hupdate]
          exact hcount
        omega
    · left
      refine ⟨?_, ?_⟩
      · simp only [StumpUpdater.applyNext, hfirst, hnext, if_neg heq]
        rfl
      · intro hq
        have hle := hmin (s.lastHeight + 1) (by
          rw [h.pending, if_pos ⟨hq, Nat.lt_succ_self _⟩]
          exact Option.some_ne_none _)
        omega
  · left
    refine ⟨?_, ?_⟩
    · simp only [StumpUpdater.applyNext, hfirst]
      rfl
    · intro hq
      have hwaits := hnone (s.lastHeight + 1)
      rw [h.pending, if_pos ⟨hq, Nat.lt_succ_self _⟩] at hwaits
      cases hwaits

theorem Progress.tryNextLoop {fuel : Nat} (hfuel : (queued.filter (s.lastHeight < ·)).card < fuel) :
    ∃ s', StumpUpdater.tryNextLoop emptyProof fuel s = .ok s' ∧
      Progress add acc adds updates start stop queued s' ∧ s'.lastHeight + 1 ∉ queued := by
  induction fuel generalizing s with
  | zero => exact absurd hfuel (Nat.not_lt_zero _)
  | succ fuel ih =>
    unfold StumpUpdater.tryNextLoop
    rcases h.applyNext hadd hstop hupdates with ⟨hdone, hnext⟩ | ⟨s', hstep, h', hheight⟩
    · rw [hdone]
      exact ⟨s, rfl, h, hnext⟩
    · rw [hstep]
      refine ih h' ?_
      have hmem : s.lastHeight + 1 ∈ queued := by
        refine h'.applied _ ?_ (Nat.le_of_eq hheight.symm)
        have hlow := h.low
        omega
      rw [filter_next hmem, Finset.card_insert_of_notMem (by simp)] at hfuel
      rw [hheight]
      omega

theorem Progress.tryNext :
    ∃ s', StumpUpdater.tryNext emptyProof s = .ok s' ∧
      Progress add acc adds updates start stop queued s' ∧ s'.lastHeight + 1 ∉ queued := by
  refine h.tryNextLoop hadd hstop hupdates ?_
  rw [h.keys]
  exact Nat.lt_succ_self _

end

theorem Progress.exec (ops : List Op) (h : Progress add acc adds updates start stop queued s)
    (hnodup : (Op.queued ops).Nodup) (hnew : ∀ k ∈ Op.queued ops, k ∉ queued)
    (hinside : ∀ k ∈ Op.queued ops, start < k ∧ k ≤ stop) :
    ∃ s', StumpUpdater.exec emptyProof stop updates ops s = .ok s' ∧
      Progress add acc adds updates start stop (queued ∪ (Op.queued ops).toFinset) s' := by
  induction ops generalizing s queued with
  | nil =>
    refine ⟨s, rfl, ?_⟩
    simpa [Op.queued] using h
  | cons op ops ih =>
    cases op with
    | queue height =>
      have hheight := hinside height List.mem_cons_self
      rcases h.queue (hnew height List.mem_cons_self) hheight.1 hheight.2
        (hupdates height hheight.1 hheight.2) with ⟨s1, hqueue, h1⟩
      rcases List.nodup_cons.mp hnodup with ⟨hfirst, hrest⟩
      have hnew1 : ∀ k ∈ Op.queued ops, k ∉ insert height queued := by
        intro k hk hmem
        rcases Finset.mem_insert.mp hmem with rfl | hmem
        · exact hfirst hk
        · exact hnew k (List.mem_cons_of_mem _ hk) hmem
      rcases ih h1 hrest hnew1 fun k hk => hinside k (List.mem_cons_of_mem _ hk) with
        ⟨s', hexec, h'⟩
      refine ⟨s', ?_, ?_⟩
      · simp only [StumpUpdater.exec, hqueue, bind_eq_ok]
        exact ⟨s1, rfl, hexec⟩
      · have hunion : queued ∪ (Op.queued (.queue height :: ops)).toFinset =
            insert height queued ∪ (Op.queued ops).toFinset := by
          simp [Op.queued, Finset.insert_union]
        rw [hunion]
        exact h'
    | drain =>
      rcases h.tryNext hadd hstop hupdates with ⟨s1, hdrain, h1, -⟩
      rcases ih h1 hnodup hnew hinside with ⟨s', hexec, h'⟩
      refine ⟨s', ?_, h'⟩
      simp only [StumpUpdater.exec, hdrain, bind_eq_ok]
      exact ⟨s1, rfl, hexec⟩

/-- The task reaches the last height with the last of the updates. -/
theorem Progress.run (heights : List Nat) (h : Progress add acc adds updates start stop queued s)
    (hnext : s.lastHeight + 1 ∉ queued) (hnodup : heights.Nodup)
    (hnew : ∀ k ∈ heights, k ∉ queued) (hinside : ∀ k ∈ heights, start < k ∧ k ≤ stop)
    (hall : ∀ k, start < k → k ≤ stop → k ∈ queued ∨ k ∈ heights) :
    StumpUpdater.run emptyProof stop (heights.map fun k => (k, updates k)) s =
      .ok (some (sequential add acc adds start (stop - start))) := by
  induction heights generalizing s queued with
  | nil =>
    have hdone := h.complete (fun k hlow hhigh => (hall k hlow hhigh).resolve_right nofun) hnext
    unfold StumpUpdater.run
    rw [if_neg (by omega), hdone.2.1]
    rfl
  | cons height heights ih =>
    have hheight := hinside height List.mem_cons_self
    have hheightNew := hnew height List.mem_cons_self
    have hlast := h.notApplied hheightNew hheight.1
    rcases h.queue hheightNew hheight.1 hheight.2 (hupdates height hheight.1 hheight.2) with
      ⟨s1, hqueue, h1⟩
    rcases h1.tryNext hadd hstop hupdates with ⟨s2, hdrain, h2, hnext2⟩
    rcases List.nodup_cons.mp hnodup with ⟨hfirst, hrest⟩
    unfold StumpUpdater.run
    rw [if_pos (Nat.lt_of_lt_of_le hlast hheight.2)]
    simp only [List.map_cons, bind_eq_ok]
    refine ⟨s1, hqueue, s2, hdrain, ih h2 hnext2 hrest ?_ ?_ ?_⟩
    · intro k hk hmem
      rcases Finset.mem_insert.mp hmem with rfl | hmem
      · exact hfirst hk
      · exact hnew k (List.mem_cons_of_mem _ hk) hmem
    · exact fun k hk => hinside k (List.mem_cons_of_mem _ hk)
    · intro k hlow hhigh
      rcases hall k hlow hhigh with hk | hk
      · exact .inl (Finset.mem_insert_of_mem hk)
      · rcases List.mem_cons.mp hk with rfl | hk
        · exact .inl (Finset.mem_insert_self ..)
        · exact .inr hk

end Order

theorem Op.queued_append (ops ops' : List Op) :
    Op.queued (ops ++ ops') = Op.queued ops ++ Op.queued ops' := by
  induction ops with
  | nil => rfl
  | cons op ops ih => cases op <;> simp [Op.queued, ih]

theorem exec_append (emptyProof : R.Proof) (stop : Nat) (updates : Nat → SparseUtreexoAdds)
    (ops ops' : List Op) (s : StumpUpdater R) :
    exec emptyProof stop updates (ops ++ ops') s =
      (exec emptyProof stop updates ops s).bind (exec emptyProof stop updates ops') := by
  induction ops generalizing s with
  | nil => rfl
  | cons op ops ih =>
    cases op with
    | queue height =>
      cases hqueue : queueUpdate s height (updates height) stop with
      | error e => simp [exec, hqueue, bind, Except.bind]
      | ok s' => simpa [exec, hqueue, bind, Except.bind] using ih s'
    | drain =>
      cases hdrain : tryNext emptyProof s with
      | error e => simp [exec, hdrain, bind, Except.bind]
      | ok s' => simpa [exec, hdrain, bind, Except.bind] using ih s'

theorem Progress.spawned (add : R.Stump → List NodeHash → R.Stump) (acc : R.Stump)
    (adds : Nat → List NodeHash) (updates : Nat → SparseUtreexoAdds) {start stop : Nat}
    (hle : start ≤ stop) :
    Progress add acc adds updates start stop ∅ (⟨acc, start, ∅, 0, 0⟩ : StumpUpdater R) := by
  refine ⟨nofun, Nat.le_refl _, hle, ?_, ?_, ?_, rfl⟩
  · intro k hk hle
    exact absurd hk (Nat.not_lt.mpr hle)
  · intro k
    rw [Finmap.lookup_empty, if_neg fun h => Finset.notMem_empty _ h.1]
  · rw [Nat.sub_self]
    rfl

/-- Updates of `n` consecutive heights arrive in any order, with any calls of `try_next` between
them.  After every operation the accumulator is the one of the heights up to the last, added one
after the other with their full lists; each other update that has arrived is waiting, and its leaves
are counted.  Once all have arrived and are drained, the accumulator is the one of all `n` heights.
The task itself returns it, in whatever order the channel gives the updates. -/
theorem stumpUpdater_sequential {emptyProof : R.Proof} {add : R.Stump → List NodeHash → R.Stump}
    (hadd : ∀ acc leaves, R.modify acc leaves [] emptyProof = .ok (add acc leaves))
    (acc : R.Stump) (adds : Nat → List NodeHash) (updates : Nat → SparseUtreexoAdds)
    {start n : Nat} (hn : 0 < n) (hheights : start + n < 2 ^ 32)
    (hupdates : ∀ h, start < h → h ≤ start + n →
      SparseUtreexoAdds.new (adds h) = .ok (updates h)) :
    ∃ s : StumpUpdater R, spawn acc start (start + n) = .ok s ∧
      (∀ ops, (Op.queued ops).Perm (List.range' (start + 1) n) →
        (∀ done, done <+: ops → ∃ s', exec emptyProof (start + n) updates done s = .ok s' ∧
          s'.lastAcc = sequential add acc adds start (s'.lastHeight - start) ∧
          (∀ h, h ∈ Op.queued done ↔ start < h ∧ (h ≤ s'.lastHeight ∨
            s'.pendingUpdates.lookup h = some (updates h))) ∧
          (∀ h, s'.pendingUpdates.lookup h ≠ none → s'.lastHeight < h) ∧
          s'.cachedUtxos = ∑ h ∈ s'.pendingUpdates.keys, leaves adds h) ∧
        ∃ s', exec emptyProof (start + n) updates (ops ++ [.drain]) s = .ok s' ∧
          s'.lastHeight = start + n ∧ s'.lastAcc = sequential add acc adds start n ∧
          s'.pendingUpdates = ∅ ∧ s'.cachedUtxos = 0) ∧
      ∀ heights : List Nat, heights.Perm (List.range' (start + 1) n) →
        run emptyProof (start + n) (heights.map fun h => (h, updates h)) s =
          .ok (some (sequential add acc adds start n)) := by
  have hrange : ∀ k, k ∈ List.range' (start + 1) n ↔ start < k ∧ k ≤ start + n := by
    intro k
    rw [List.mem_range'_1]
    omega
  have hlen : start + n - start = n := by omega
  have hspawned := Progress.spawned add acc adds updates (Nat.le_add_right start n)
  refine ⟨⟨acc, start, ∅, 0, 0⟩, ?_, ?_, ?_⟩
  · simp only [spawn, bind_eq_ok, require_eq_ok, pure_eq_ok]
    exact ⟨(), by omega, trivial⟩
  · intro ops hperm
    have hnodup : (Op.queued ops).Nodup := hperm.nodup_iff.mpr List.nodup_range'
    have hinside : ∀ k ∈ Op.queued ops, start < k ∧ k ≤ start + n := fun k hk =>
      (hrange k).mp (hperm.mem_iff.mp hk)
    constructor
    · rintro done ⟨later, rfl⟩
      rw [Op.queued_append] at hnodup hinside
      rcases hspawned.exec hadd hheights hupdates done (List.nodup_append.mp hnodup).1
        (fun _ _ => Finset.notMem_empty _) (fun k hk => hinside k (List.mem_append_left _ hk)) with
        ⟨s', hexec, h⟩
      rw [Finset.empty_union] at h
      refine ⟨s', hexec, h.lastAcc, ?_, ?_, ?_⟩
      · intro k
        rw [h.pending k, ← List.mem_toFinset]
        constructor
        · intro hk
          refine ⟨(h.inside k hk).1, ?_⟩
          by_cases hle : k ≤ s'.lastHeight
          · exact .inl hle
          · exact .inr (if_pos ⟨hk, Nat.lt_of_not_le hle⟩)
        · rintro ⟨hlow, hle | hk⟩
          · exact h.applied k hlow hle
          · by_contra hno
            rw [if_neg fun hq => hno hq.1] at hk
            cases hk
      · intro k hk
        by_contra hle
        rw [h.pending k, if_neg fun hq => hle hq.2] at hk
        exact hk rfl
      · rw [h.keys, h.cached]
    · rcases hspawned.exec hadd hheights hupdates ops hnodup
        (fun _ _ => Finset.notMem_empty _) hinside with ⟨s1, hexec, h1⟩
      rw [Finset.empty_union] at h1
      rcases h1.tryNext hadd hheights hupdates with ⟨s', hdrain, h', hnext⟩
      rcases h'.complete (fun k hlow hhigh =>
        List.mem_toFinset.mpr (hperm.mem_iff.mpr ((hrange k).mpr ⟨hlow, hhigh⟩))) hnext with
        ⟨hheight, hacc, hpending, hcached⟩
      refine ⟨s', ?_, hheight, ?_, hpending, hcached⟩
      · rw [exec_append, hexec]
        simp [exec, Except.bind, hdrain, bind]
      · rw [hacc, hlen]
  · intro heights hperm
    rw [hspawned.run hadd hheights hupdates heights (Finset.notMem_empty _)
      (hperm.nodup_iff.mpr List.nodup_range') (fun _ _ => Finset.notMem_empty _)
      (fun k hk => (hrange k).mp (hperm.mem_iff.mp hk))
      (fun k hlow hhigh => .inr (hperm.mem_iff.mpr ((hrange k).mpr ⟨hlow, hhigh⟩))), hlen]

namespace Sample

def slots : Rustreexo where
  Stump := List NodeHash
  Proof := Unit
  new := []
  modify acc adds _ _ := .ok (acc ++ adds)
  serialize _ := []
  deserialize _ := .ok []

def adds (height : Nat) : List NodeHash :=
  [.some height, .empty]

def updates (height : Nat) : SparseUtreexoAdds :=
  ⟨2, [(0, .some height)]⟩

end Sample

open Sample in
theorem stumpUpdater_sequential_three :
    ∃ s : StumpUpdater slots, spawn [] 7 10 = .ok s ∧
      run () 10 ([9, 10, 8].map fun h => (h, updates h)) s =
        .ok (some (adds 8 ++ adds 9 ++ adds 10)) := by
  rcases @stumpUpdater_sequential slots () List.append (fun _ _ => rfl) []
    adds updates 7 3 (by decide) (by decide) (fun _ _ _ => rfl) with
    ⟨s, hspawn, -, hrun⟩
  exact ⟨s, hspawn, hrun [9, 10, 8] (by decide)⟩

end StumpUpdater
end Floresta
