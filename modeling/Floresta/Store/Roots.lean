import Floresta.Store.Operations

/-!
# Roots — the accumulator file

`save_roots_for_block` appends the bytes of an accumulator to a file and notes their position in the
record of the block.  If the block is not above the last validated one that was flushed, the file is
cut off first, at the position that the record of the block has.  Neither changes the header map.
-/

namespace Floresta.FlatChainStore

open Prog

variable {B : Bitcoin} {genesis : BlockHash} {k : Nat} {s : FlatChainStore}

/-! ## Changes the map does not see -/

theorem StoreCore.withFile (h : StoreCore B genesis k s) (file : Bytes) :
    StoreCore B genesis k { s with accumulatorFile := file } :=
  { h with readable := fun b hb => { h.readable b hb with } }

theorem view_withFile (s : FlatChainStore) (file : Bytes) :
    ({ s with accumulatorFile := file } : FlatChainStore).view = s.view :=
  view_congr rfl rfl fun _ => rfl

theorem StoreInv.withFile (h : StoreInv B genesis k s) (file : Bytes) :
    StoreInv B genesis k { s with accumulatorFile := file } := by
  refine ⟨h.core.withFile file, ?_⟩
  unfold Coherent
  rw [view_withFile]
  exact h.coherent

/-- The store after the best chain was flushed. -/
def withHeight (s : FlatChainStore) (best : BestChain) : FlatChainStore :=
  { s with
    metadata := { s.metadata with
      bestBlock := best.bestBlock
      depth := best.depth
      validationIndex := best.validationIndex } }

theorem view_withHeight (s : FlatChainStore) (best : BestChain) :
    (s.withHeight best).view = s.view :=
  view_congr rfl rfl fun _ => rfl

theorem StoreInv.withHeight (h : StoreInv B genesis k s) (best : BestChain) :
    StoreInv B genesis k (s.withHeight best) := by
  have hcore : StoreCore B genesis k (s.withHeight best) :=
    { h.core with readable := fun b hb => { h.core.readable b hb with } }
  refine ⟨hcore, ?_⟩
  unfold Coherent
  rw [view_withHeight]
  exact h.coherent

/-- The record of a height with another accumulator position. -/
def setRoots (s : FlatChainStore) (h pos len : Nat) : FlatChainStore :=
  s.setSlot ⟨false, h⟩ { s.headers h with accPos := pos, accLen := len }

theorem view_setRoots (s : FlatChainStore) (h pos len : Nat) :
    (s.setRoots h pos len).view = s.view := by
  refine view_congr (setSlot_indexMap ..) rfl ?_
  intro i
  have hslot : (s.setRoots h pos len).slot i =
      if i = ⟨false, h⟩ then { s.headers h with accPos := pos, accLen := len } else s.slot i :=
    slot_setSlot ..
  have hcount : (s.setRoots h pos len).slotCount i = s.slotCount i := rfl
  unfold getDiskHeader
  rw [hslot, hcount]
  by_cases hi : i = ⟨false, h⟩
  · have hold : s.slot i = s.headers h := by rw [hi]; rfl
    rw [if_pos hi, hold]
    split
    · rfl
    · split <;> rfl
  · rw [if_neg hi]

theorem StoreInv.setRoots (hinv : StoreInv B genesis k s) {h : Nat} (hpos : h ≠ 0)
    (hwritten : (s.headers h).hash ≠ 0) (hgenesis : (s.headers h).hash ≠ genesis) (pos len : Nat) :
    StoreInv B genesis k (s.setRoots h pos len) := by
  have hw : Writable B genesis k s ⟨false, h⟩
      { s.headers h with accPos := pos, accLen := len } := by
    refine ⟨by simpa [Index.isEmpty] using hpos, hgenesis, hwritten, ?_, fun _ => ?_, ?_, ?_⟩
    · exact hinv.core.hashes ⟨false, h⟩ hwritten
    · exact hinv.core.mainSlots h hwritten
    · intro hf
      cases hf
    · intro b hb hi
      rw [keyAt_eq_some, hi]
      exact ⟨by simpa [Index.isEmpty] using hpos, rfl⟩
  refine ⟨hinv.core.setSlot hw, ?_⟩
  have hcache : (s.setRoots h pos len).cache = s.cache := setSlot_cache ..
  unfold Coherent
  rw [hcache, view_setRoots]
  exact hinv.coherent

/-! ## Saving -/

/-- The height of the last validated block that was flushed. -/
def flushedHeight (s : FlatChainStore) : Except FlatChainstoreError Nat :=
  validationHeight (s.view s.metadata.validationIndex)

/-- The file the accumulator of a height is appended to. -/
def baseFile (s : FlatChainStore) (flushed h : Nat) : Bytes :=
  if h ≤ flushed then setLen s.accumulatorFile (s.headers h).accPos else s.accumulatorFile

/-- What saving an accumulator leaves alone, whether it fails or not. -/
structure RootsFrame (B : Bitcoin) (genesis : BlockHash) (k : Nat) (s s' : FlatChainStore)
    (h : Nat) : Prop where
  inv : StoreInv B genesis k s'
  view : s'.view = s.view
  metadata : s'.metadata = s.metadata
  headers : ∀ n ≠ h, s'.headers n = s.headers n
  record : (s'.headers h).header = (s.headers h).header ∧ (s'.headers h).hash = (s.headers h).hash

/-- The accumulator was appended, and its position is in the record. -/
structure RootsSaved (s : FlatChainStore) (roots : Bytes) (h : Nat) (s' : FlatChainStore) :
    Prop where
  size : roots.length ≤ MAX_ACCUMULATOR_SIZE
  appended : ∃ flushed, flushedHeight s = .ok flushed ∧
    s'.accumulatorFile = baseFile s flushed h ++ roots ∧
    s'.headers h = { s.headers h with
      accPos := (baseFile s flushed h).length % 2 ^ 32, accLen := roots.length % 2 ^ 32 }

section Append

variable {h : Nat} {roots : Bytes}

theorem RootsFrame.withFile (hinv : StoreInv B genesis k s) (file : Bytes) :
    RootsFrame B genesis k s { s with accumulatorFile := file } h :=
  ⟨hinv.withFile file, view_withFile s file, rfl, fun _ _ => rfl, rfl, rfl⟩

theorem RootsFrame.trans {s' s'' : FlatChainStore} (h1 : RootsFrame B genesis k s s' h)
    (h2 : RootsFrame B genesis k s' s'' h) : RootsFrame B genesis k s s'' h where
  inv := h2.inv
  view := h2.view.trans h1.view
  metadata := h2.metadata.trans h1.metadata
  headers := fun n hn => (h2.headers n hn).trans (h1.headers n hn)
  record := ⟨h2.record.1.trans h1.record.1, h2.record.2.trans h1.record.2⟩

theorem RootsFrame.of_sameFiles {s' : FlatChainStore} (hinv : StoreInv B genesis k s')
    (hfiles : SameFiles s s') : RootsFrame B genesis k s s' h := by
  refine ⟨hinv, hfiles.view, ?_, ?_, ?_⟩
  · rw [hfiles]
  · intro n _
    rw [hfiles]
  · rw [hfiles]
    exact ⟨rfl, rfl⟩

theorem appendRoots_spec (hinv : StoreInv B genesis k s) (hpos : h ≠ 0)
    (hgenesis : (s.headers h).hash ≠ genesis) :
    wp (appendRoots roots ⟨false, h⟩) (fun r s' => RootsFrame B genesis k s s' h ∧
      (r = .ok () → roots.length ≤ MAX_ACCUMULATOR_SIZE ∧
        s'.accumulatorFile = s.accumulatorFile ++ roots ∧
        s'.headers h = { s.headers h with
          accPos := s.accumulatorFile.length % 2 ^ 32, accLen := roots.length % 2 ^ 32 })) s := by
  have hrefl : RootsFrame B genesis k s s h := RootsFrame.of_sameFiles hinv (SameFiles.refl s)
  unfold appendRoots
  rw [wp_read_bind, wp_bind]
  by_cases hsize : MAX_ACCUMULATOR_SIZE < roots.length
  · rw [if_pos hsize]
    exact ⟨hrefl, fun hok => by cases hok⟩
  · rw [if_neg hsize, wp_pure, andThen_ok, wp_bind, wp_lift]
    by_cases hinside : s.slotCount ⟨false, h⟩ ≤ h
    · have hmut : (id s).getDiskHeaderMut ⟨false, h⟩ = .error .fullIndex := if_pos hinside
      rw [hmut]
      exact ⟨hrefl, fun hok => by cases hok⟩
    · have hmut : (id s).getDiskHeaderMut ⟨false, h⟩ = .ok (s.headers h) := if_neg hinside
      rw [hmut, andThen_ok, wp_bind]
      by_cases hhash : (s.headers h).hash = 0
      · rw [if_pos hhash]
        exact ⟨hrefl, fun hok => by cases hok⟩
      · rw [if_neg hhash, wp_pure, andThen_ok, wp_modify]
        have hset := hinv.setRoots hpos hhash hgenesis (s.accumulatorFile.length % 2 ^ 32)
          (roots.length % 2 ^ 32)
        have hheaders : ∀ n, (s.setRoots h (s.accumulatorFile.length % 2 ^ 32)
            (roots.length % 2 ^ 32)).headers n =
            if n = h then { s.headers h with
              accPos := s.accumulatorFile.length % 2 ^ 32, accLen := roots.length % 2 ^ 32 }
            else s.headers n := by
          intro n
          exact Function.update_apply ..
        refine ⟨⟨hset.withFile _, (view_withFile _ _).trans (view_setRoots ..), rfl, ?_, ?_⟩, ?_⟩
        · intro n hn
          exact (hheaders n).trans (if_neg hn)
        · have hrecord := (hheaders h).trans (if_pos rfl)
          have hheader := congrArg HashedDiskHeader.header hrecord
          have hhash' := congrArg HashedDiskHeader.hash hrecord
          exact ⟨hheader, hhash'⟩
        · intro _
          exact ⟨Nat.le_of_not_lt hsize, rfl, (hheaders h).trans (if_pos rfl)⟩

/-- The accumulator of a block is appended to the file, or nothing but the length of the file
changes. -/
theorem saveRootsForBlock_spec (hinv : StoreInv B genesis k s) (hpos : h ≠ 0) (hindex : h < 2 ^ 31)
    (hinside : h < s.metadata.headersFileSize) (hwritten : (s.headers h).hash ≠ 0)
    (hgenesis : (s.headers h).hash ≠ genesis) :
    wp (saveRootsForBlock roots h) (fun r s' => RootsFrame B genesis k s s' h ∧
      (r = .ok () → RootsSaved s roots h s')) s := by
  unfold saveRootsForBlock
  rw [wp_bind, wp_lift, Index.new_eq hindex, andThen_ok, wp_read_bind, wp_bind]
  refine wp_mono (getHeader_spec hinv s.metadata.validationIndex) ?_
  rintro r s1 ⟨rfl, hfiles, hinv1⟩
  have hframe1 : RootsFrame B genesis k s s1 h := RootsFrame.of_sameFiles hinv1 hfiles
  have hsame : s1.headers = s.headers ∧ s1.accumulatorFile = s.accumulatorFile := by
    rw [hfiles]
    exact ⟨rfl, rfl⟩
  rw [andThen_ok, wp_bind, wp_lift]
  change andThen _ _ (flushedHeight s) s1
  cases hf : flushedHeight s with
  | error e => exact ⟨hframe1, fun hok => by cases hok⟩
  | ok flushed =>
    rw [andThen_ok, wp_bind]
    by_cases hcut : h ≤ flushed
    · -- the record was written, so the file is cut off at its position
      have hread : Readable s1 ⟨false, h⟩ := by
        refine ⟨?_, ?_⟩
        · change h < s1.metadata.headersFileSize
          rw [hframe1.metadata]
          exact hinside
        · change (s1.headers h).hash ≠ 0
          rw [hsame.1]
          exact hwritten
      rw [if_pos hcut, wp_read_bind, wp_bind, wp_lift]
      have hget : (id s1).getDiskHeader ⟨false, h⟩ = .ok (s1.headers h) :=
        getDiskHeader_readable hread
      rw [hget, andThen_ok, wp_modify, andThen_ok]
      have hinv2 := hinv1.withFile (setLen s1.accumulatorFile (s1.headers h).accPos)
      refine wp_mono (appendRoots_spec hinv2 hpos (by rw [← hsame.1] at hgenesis; exact hgenesis)) ?_
      rintro r s' ⟨hframe, hsaved⟩
      refine ⟨(hframe1.trans (RootsFrame.withFile hinv1 _)).trans hframe, fun hok => ?_⟩
      rcases hsaved hok with ⟨hlen, hfile, hrecord⟩
      have hbase : baseFile s flushed h = setLen s1.accumulatorFile (s1.headers h).accPos := by
        unfold baseFile
        rw [if_pos hcut, hsame.1, hsame.2]
      refine ⟨hlen, flushed, hf, ?_, ?_⟩
      · rw [hbase]
        exact hfile
      · rw [hbase, hrecord, hsame.1]
    · rw [if_neg hcut, wp_pure, andThen_ok]
      refine wp_mono (appendRoots_spec hinv1 hpos (by rw [hsame.1]; exact hgenesis)) ?_
      rintro r s' ⟨hframe, hsaved⟩
      refine ⟨hframe1.trans hframe, fun hok => ?_⟩
      rcases hsaved hok with ⟨hlen, hfile, hrecord⟩
      have hbase : baseFile s flushed h = s1.accumulatorFile := by
        unfold baseFile
        rw [if_neg hcut, hsame.2]
      refine ⟨hlen, flushed, hf, ?_, ?_⟩
      · rw [hbase]
        exact hfile
      · rw [hbase, hrecord, hsame.1]

end Append

end Floresta.FlatChainStore
