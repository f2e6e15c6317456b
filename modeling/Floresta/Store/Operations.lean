import Floresta.Store.IndexSize

/-!
# Operations — what reading and saving headers does to the map

Between two operations the store satisfies `StoreInv`.  A read leaves the files alone; saving a fork
header, or a best-chain header together with its index entry, updates the map at one hash if there
is room for it, and reports that the store is full if there is not.
-/

namespace Floresta.FlatChainStore

open Prog

variable {s s' : FlatChainStore} {h : Nat} {d : DiskBlockHeader}

/-- The files are in order and the cache agrees with them. -/
structure StoreInv (B : Bitcoin) (genesis : BlockHash) (k : Nat) (s : FlatChainStore) : Prop where
  core : StoreCore B genesis k s
  coherent : Coherent s

/-- The two stores differ in their caches only. -/
def SameFiles (s s' : FlatChainStore) : Prop := s' = { s with cache := s'.cache }

theorem SameFiles.refl (s : FlatChainStore) : SameFiles s s := rfl

theorem SameFiles.trans {s'' : FlatChainStore} (h : SameFiles s s') (h' : SameFiles s' s'') :
    SameFiles s s'' := by
  unfold SameFiles at *
  rw [h', h]

theorem view_withCache (s : FlatChainStore) (cache : Lru BlockHash DiskBlockHeader) :
    ({ s with cache := cache } : FlatChainStore).view = s.view :=
  view_congr rfl rfl fun _ => rfl

theorem SameFiles.view (h : SameFiles s s') : s'.view = s.view := by
  rw [h]
  exact view_withCache s s'.cache

theorem StoreCore.withCache {B : Bitcoin} {genesis : BlockHash} {k : Nat}
    (h : StoreCore B genesis k s) (cache : Lru BlockHash DiskBlockHeader) :
    StoreCore B genesis k { s with cache := cache } :=
  { h with readable := fun b hb => { h.readable b hb with } }

variable {B : Bitcoin} {genesis : BlockHash} {k : Nat} {s : FlatChainStore}

/-! ## Reading -/

theorem getHeader_spec (hinv : StoreInv B genesis k s) (hash : BlockHash) :
    wp (getHeader hash) (fun r s' => r = .ok (s.view hash) ∧ SameFiles s s' ∧
      StoreInv B genesis k s') s := by
  have hsnd := hinv.coherent.get_snd hash
  -- the store with another cache is in order if that cache agrees with the map
  have hwith : ∀ cache : Lru BlockHash DiskBlockHeader, cache.Agrees s.view →
      SameFiles s { s with cache := cache } ∧ StoreInv B genesis k { s with cache := cache } := by
    intro cache hagrees
    refine ⟨rfl, hinv.core.withCache cache, ?_⟩
    unfold Coherent
    rw [view_withCache]
    exact hagrees
  unfold wp getHeader
  rcases hget : s.cache.get hash with ⟨hit, cache⟩
  rw [hget] at hsnd
  cases hit with
  | some header =>
    have hview := hinv.coherent.get_fst (congrArg Prod.fst hget)
    exact ⟨congrArg Except.ok hview.symm, hwith cache hsnd⟩
  | none =>
    simp only [getHeaderByHash_eq hinv.core]
    cases hview : s.view hash with
    | none => exact ⟨rfl, hwith cache hsnd⟩
    | some header =>
      have hput := Lru.Agrees.put hsnd hash header
      rw [← hview, Function.update_eq_self] at hput
      exact ⟨rfl, hwith _ hput⟩

theorem Index.new_eq (hh : h < 2 ^ 31) : Index.new h = .ok ⟨false, h⟩ :=
  if_neg (Nat.not_le.mpr hh)

theorem recordAt_ok (hinside : h < s.metadata.headersFileSize) (hh : h < 2 ^ 31)
    (hwritten : (s.headers h).hash ≠ 0) : recordAt h s = (.ok (some (s.headers h)), s) := by
  have hread : Readable s ⟨false, h⟩ := ⟨hinside, hwritten⟩
  unfold recordAt
  rw [Index.new_eq hh]
  simp only [getDiskHeader_readable hread]
  rfl

theorem getBlockHash_written (hinside : h < s.metadata.headersFileSize) (hh : h < 2 ^ 31)
    (hwritten : (s.headers h).hash ≠ 0) :
    (FlatChainStore.getBlockHash h s).1 = .ok (some (s.headers h).hash) := by
  change wp (FlatChainStore.getBlockHash h) (fun r _ => r = .ok (some (s.headers h).hash)) s
  unfold FlatChainStore.getBlockHash
  rw [wp_bind]
  unfold wp
  rw [recordAt_ok hinside hh hwritten]
  rfl

/-! ## Room -/

@[mk_iff]
structure ForkRoom (s : FlatChainStore) : Prop where
  inside : s.metadata.forkCount < s.metadata.forkFileSize
  index : s.metadata.forkCount < 2 ^ 31
  bucket : s.metadata.blockIndexOccupancy + 1 < s.metadata.indexCapacity

@[mk_iff] structure ActiveRoom (s : FlatChainStore) (h : Nat) : Prop where
  inside : h < s.metadata.headersFileSize
  index : h < 2 ^ 31
  bucket : s.metadata.blockIndexOccupancy + 1 < s.metadata.indexCapacity

/-- The errors that report a store without room. -/
def IsFull (e : FlatChainstoreError) : Prop := e = .fullIndex ∨ e = .oversizedIndex

theorem warningIfFull_ok {warning : ChainStoreWarning} {m : StoreM Unit}
    {P : FlatChainStore → Prop} (h : wp m (fun r s' => r = .ok () ∧ P s') s) :
    wp (warningIfFull warning m) (fun r s' => r = .ok () ∧ P s') s := by
  unfold warningIfFull
  simp only [wp_bind, wp_attempt]
  refine wp_mono h ?_
  rintro r s' ⟨rfl, hs'⟩
  exact ⟨rfl, hs'⟩

theorem warningIfFull_full {warning : ChainStoreWarning} {m : StoreM Unit}
    (h : wp m (fun r _ => ∃ e, r = .error e ∧ IsFull e) s) :
    wp (warningIfFull warning m) (fun r _ => ∃ e, r = .error e ∧ IsFull e) s := by
  unfold warningIfFull
  simp only [wp_bind, wp_attempt]
  refine wp_mono h ?_
  rintro r s' ⟨e, rfl, rfl | rfl⟩
  · exact ⟨_, rfl, .inl rfl⟩
  · exact ⟨_, rfl, .inr rfl⟩

/-! ## Saving -/

/-- What a save leaves alone, and how it moves the counters. -/
structure Frame (s s' : FlatChainStore) (hash : BlockHash) : Prop where
  headersFileSize : s'.metadata.headersFileSize = s.metadata.headersFileSize
  forkFileSize : s'.metadata.forkFileSize = s.metadata.forkFileSize
  indexCapacity : s'.metadata.indexCapacity = s.metadata.indexCapacity
  validationIndex : s'.metadata.validationIndex = s.metadata.validationIndex
  accumulatorFile : s'.accumulatorFile = s.accumulatorFile
  occupancy : s'.metadata.blockIndexOccupancy =
    s.metadata.blockIndexOccupancy + if (s.view hash).isSome then 0 else 1

/-- The store after a record was cached and written, before its index entry. -/
def written (s : FlatChainStore) (i : Index) (record : HashedDiskHeader) : FlatChainStore :=
  setSlot { s with cache := s.cache.put record.hash record.header } i record

section Save

variable {i : Index} {record : HashedDiskHeader}

theorem Writable.withCache (hw : Writable B genesis k s i record)
    (cache : Lru BlockHash DiskBlockHeader) :
    Writable B genesis k { s with cache := cache } i record :=
  { hw with }

section

variable (hinv : StoreInv B genesis k s) (hw : Writable B genesis k s i record)

include hinv hw

theorem written_core : StoreCore B genesis k (s.written i record) :=
  (hinv.core.withCache _).setSlot (hw.withCache _)

theorem view_written {hash : BlockHash} (hne : hash ≠ record.hash) :
    (s.written i record).view hash = s.view hash := by
  unfold written
  rw [view_setSlot (hinv.core.withCache _) (hw.withCache _) hne, view_withCache]

theorem placed_occupancy {b o : Nat} (h : Placed (written_core hinv hw) record.hash b o) :
    o = s.metadata.blockIndexOccupancy + if (s.view record.hash).isSome then 0 else 1 := by
  have hmeta : (s.written i record).metadata = s.metadata := setSlot_metadata ..
  have hkeys : ∀ b < 2 ^ k, keyAt (s.written i record) b = keyAt s b := by
    intro b hb
    exact keyAt_setSlot (hw.withCache _) hb
  cases h with
  | again hb hkey =>
    rw [hkeys b hb] at hkey
    simp [view_mem hinv.core hb hkey, hmeta]
  | fresh _ _ _ hnot =>
    have hnot' : ∀ b < 2 ^ k, keyAt s b ≠ some record.hash := by
      intro b hb
      rw [← hkeys b hb]
      exact hnot b hb
    simp [view_notMem hinv.core hw.notGenesis hnot', hmeta]

theorem written_full
    (hfull : ¬ s.metadata.blockIndexOccupancy + 1 < s.metadata.indexCapacity) :
    addIndexEntry record.hash i (s.written i record) = (.error .fullIndex, s.written i record) := by
  have hmeta : (s.written i record).metadata = s.metadata := setSlot_metadata ..
  refine addIndexEntry_full (written_core hinv hw) record.hash i ?_
  rwa [hmeta, ← hinv.core.capacity]

/-- With room in the index, the entry of a written record updates the map at its hash. -/
theorem save_step (hinside : i.pos < s.slotCount i)
    (hroom : s.metadata.blockIndexOccupancy + 1 < s.metadata.indexCapacity) :
    ∃ b o, addIndexEntry record.hash i (s.written i record) =
        (.ok (), (s.written i record).withIndex b i o s.metadata.forkCount) ∧
      o = s.metadata.blockIndexOccupancy + (if (s.view record.hash).isSome then 0 else 1) ∧
      ∀ c, s.metadata.forkCount ≤ c → (i.fork = true → i.pos < c) →
        StoreInv B genesis k ((s.written i record).withIndex b i o c) ∧
        ((s.written i record).withIndex b i o c).view =
          Function.update s.view record.hash (some record.header) := by
  have hcore := written_core hinv hw
  have hmeta : (s.written i record).metadata = s.metadata := setSlot_metadata ..
  have hslot : (s.written i record).slot i = record := by
    unfold written
    rw [slot_setSlot, if_pos rfl]
  have hread : Readable (s.written i record) i := by
    refine ⟨?_, ?_⟩
    · simpa [slotCount, hmeta] using hinside
    · rw [hslot]
      exact hw.notZero
  have hcapacity := hinv.core.capacity
  rcases addIndexEntry_ok hcore hw.notGenesis i (by rw [hmeta]; omega) with ⟨b, o, hplaced, hrun⟩
  have ho := placed_occupancy hinv hw hplaced
  have hbound : o < 2 ^ k := by
    rw [ho]
    split <;> omega
  rw [hmeta] at hrun
  refine ⟨b, o, hrun, ho, ?_⟩
  intro c hc hfork
  have hc' : (s.written i record).metadata.forkCount ≤ c := by
    rw [hmeta]
    exact hc
  have hhash : ((s.written i record).slot i).hash = record.hash := by rw [hslot]
  have hview : ((s.written i record).withIndex b i o c).view =
      Function.update s.view record.hash (some record.header) := by
    rw [view_withIndex hcore hw.notGenesis hw.nonempty hread hhash hplaced hbound hc' hfork, hslot]
    funext x
    by_cases hx : x = record.hash
    · rw [hx, Function.update_self, Function.update_self]
    · rw [Function.update_of_ne hx, Function.update_of_ne hx, view_written hinv hw hx]
  refine ⟨⟨hcore.withIndex hw.notGenesis hw.nonempty hread hhash hplaced hbound hc' hfork, ?_⟩,
    hview⟩
  have hcache : ((s.written i record).withIndex b i o c).cache =
      s.cache.put record.hash record.header := setSlot_cache ..
  unfold Coherent
  rw [hview, hcache]
  exact hinv.coherent.put record.hash record.header

end

theorem frame_withIndex (s : FlatChainStore) {b o : Nat}
    (ho : o = s.metadata.blockIndexOccupancy + if (s.view record.hash).isSome then 0 else 1)
    (c : Nat) : Frame s ((s.written i record).withIndex b i o c) record.hash := by
  have hmeta : (s.written i record).metadata = s.metadata := setSlot_metadata ..
  have hsizes : (s.written i record).metadata.headersFileSize = s.metadata.headersFileSize ∧
      (s.written i record).metadata.forkFileSize = s.metadata.forkFileSize ∧
      (s.written i record).metadata.indexCapacity = s.metadata.indexCapacity ∧
      (s.written i record).metadata.validationIndex = s.metadata.validationIndex := by
    rw [hmeta]
    exact ⟨rfl, rfl, rfl, rfl⟩
  exact ⟨hsizes.1, hsizes.2.1, hsizes.2.2.1, hsizes.2.2.2, setSlot_accumulatorFile .., ho⟩

theorem written_fork_headers (s : FlatChainStore) (n : Nat) (record : HashedDiskHeader) :
    (s.written ⟨true, n⟩ record).headers = s.headers := rfl

theorem written_main_headers (s : FlatChainStore) (h : Nat) (record : HashedDiskHeader) :
    (s.written ⟨false, h⟩ record).headers = Function.update s.headers h record := rfl

end Save

/-- The map was updated at the hash of a header. -/
structure Saved (B : Bitcoin) (genesis : BlockHash) (k : Nat) (s : FlatChainStore)
    (d : DiskBlockHeader) (s' : FlatChainStore) : Prop where
  inv : StoreInv B genesis k s'
  view : s'.view = Function.update s.view (d.blockHash B) (some d)
  frame : Frame s s' (d.blockHash B)

/-! ### Fork headers -/

section

variable (hinv : StoreInv B genesis k s) (hinactive : d.isActive = false)
    (hgenesis : d.blockHash B ≠ genesis) (hzero : d.blockHash B ≠ 0)

include hinv hinactive hgenesis hzero

theorem fork_writable :
    Writable B genesis k s ⟨true, s.metadata.forkCount⟩ ⟨d, d.blockHash B, 0, 0⟩ where
  nonempty := rfl
  notGenesis := hgenesis
  notZero := hzero
  blockHash := rfl
  main := fun h => by cases h
  fork := fun _ => hinactive
  unused := by
    intro b hb heq
    have hfresh := hinv.core.forkFresh b hb (by rw [heq])
    rw [heq] at hfresh
    exact absurd hfresh (Nat.lt_irrefl _)

theorem saveHeader_fork (hroom : ForkRoom s) :
    wp (saveHeader B d) (fun r s' => r = .ok () ∧ Saved B genesis k s d s' ∧
      s'.headers = s.headers ∧ s'.metadata.forkCount = s.metadata.forkCount + 1 ∧
      s'.forkHeaders = Function.update s.forkHeaders s.metadata.forkCount
        ⟨d, d.blockHash B, 0, 0⟩) s := by
  have hw := fork_writable hinv hinactive hgenesis hzero
  rcases save_step hinv hw hroom.inside hroom.bucket with ⟨b, o, hrun, ho, hafter⟩
  rcases hafter (s.metadata.forkCount + 1) (Nat.le_succ _) (fun _ => Nat.lt_succ_self _) with
    ⟨hinv', hview⟩
  have hnew : Index.newFork s.metadata.forkCount = .ok ⟨true, s.metadata.forkCount⟩ :=
    if_neg (Nat.not_le.mpr hroom.index)
  have hmut : getDiskHeaderMut { s with cache := s.cache.put (d.blockHash B) d }
      ⟨true, s.metadata.forkCount⟩ = .ok (s.slot ⟨true, s.metadata.forkCount⟩) :=
    if_neg (Nat.not_le.mpr hroom.inside)
  unfold saveHeader
  rw [wp_modify_bind]
  refine warningIfFull_ok ?_
  rw [hinactive]
  simp only [Bool.false_eq_true, if_false, saveForkBlock, wp_bind, wp_read, andThen_ok, wp_lift,
    id, hnew, hmut, wp_modify]
  -- the record is written; what is left is its index entry and the counter
  have hentry : wp (addIndexEntry (d.blockHash B) ⟨true, s.metadata.forkCount⟩)
      (fun r s' => r = .ok () ∧ s' = (s.written ⟨true, s.metadata.forkCount⟩
        ⟨d, d.blockHash B, 0, 0⟩).withIndex b ⟨true, s.metadata.forkCount⟩ o
          s.metadata.forkCount)
      (s.written ⟨true, s.metadata.forkCount⟩ ⟨d, d.blockHash B, 0, 0⟩) := by
    unfold wp
    rw [hrun]
    exact ⟨rfl, rfl⟩
  refine wp_mono hentry ?_
  rintro r s' ⟨rfl, rfl⟩
  exact ⟨rfl, ⟨hinv', hview, frame_withIndex s ho _⟩,
    written_fork_headers s s.metadata.forkCount ⟨d, d.blockHash B, 0, 0⟩, rfl, rfl⟩

theorem saveHeader_fork_full (hroom : ¬ ForkRoom s) :
    wp (saveHeader B d) (fun r _ => ∃ e, r = .error e ∧ IsFull e) s := by
  have hw := fork_writable hinv hinactive hgenesis hzero
  unfold saveHeader
  rw [wp_modify_bind]
  refine warningIfFull_full ?_
  rw [hinactive]
  simp only [Bool.false_eq_true, if_false, saveForkBlock, wp_bind, wp_read, andThen_ok, wp_lift, id]
  by_cases hindex : s.metadata.forkCount < 2 ^ 31
  · have hnew : Index.newFork s.metadata.forkCount = .ok ⟨true, s.metadata.forkCount⟩ :=
      if_neg (Nat.not_le.mpr hindex)
    rw [hnew, andThen_ok, wp_bind, wp_lift]
    by_cases hinside : s.metadata.forkCount < s.metadata.forkFileSize
    · have hmut : getDiskHeaderMut { s with cache := s.cache.put (d.blockHash B) d }
          ⟨true, s.metadata.forkCount⟩ = .ok (s.slot ⟨true, s.metadata.forkCount⟩) :=
        if_neg (Nat.not_le.mpr hinside)
      rw [hmut, andThen_ok, wp_modify_bind, wp_bind]
      have hwp : wp (addIndexEntry (d.blockHash B) ⟨true, s.metadata.forkCount⟩)
          (fun r _ => r = .error .fullIndex)
          (s.written ⟨true, s.metadata.forkCount⟩ ⟨d, d.blockHash B, 0, 0⟩) :=
        congrArg Prod.fst (written_full hinv hw fun hlt => hroom ⟨hinside, hindex, hlt⟩)
      refine wp_mono hwp ?_
      rintro r s' rfl
      exact ⟨_, rfl, .inl rfl⟩
    · have hmut : getDiskHeaderMut { s with cache := s.cache.put (d.blockHash B) d }
          ⟨true, s.metadata.forkCount⟩ = .error .fullIndex :=
        if_pos (Nat.not_lt.mp hinside)
      rw [hmut]
      exact ⟨_, rfl, .inl rfl⟩
  · have hnew : Index.newFork s.metadata.forkCount = .error .oversizedIndex :=
      if_pos (Nat.not_lt.mp hindex)
    rw [hnew]
    exact ⟨_, rfl, .inr rfl⟩

end

/-! ### Best-chain headers -/

/-- Saves a best-chain header and points its hash to it. -/
def saveIndexed (B : Bitcoin) (d : DiskBlockHeader) (hash : BlockHash) (height : Nat) :
    StoreM Unit := do
  saveHeader B d
  updateBlockIndex height hash

theorem saveHeader_active (hactive : d.isActive = true)
    (hheight : d.height = some h) (hinside : h < s.metadata.headersFileSize) (hindex : h < 2 ^ 31) :
    wp (saveHeader B d) (fun r s' => r = .ok () ∧
      s' = s.written ⟨false, h⟩ ⟨d, d.blockHash B, 0, 0⟩) s := by
  have hmut : getDiskHeaderMut { s with cache := s.cache.put (d.blockHash B) d } ⟨false, h⟩ =
      .ok (s.slot ⟨false, h⟩) := if_neg (Nat.not_le.mpr hinside)
  unfold saveHeader
  rw [wp_modify_bind]
  refine warningIfFull_ok ?_
  rw [hactive]
  simp only [if_true, writeHeaderToStorage, wp_bind, wp_read, andThen_ok, wp_lift, id, hheight,
    Option.getD_some, Index.new_eq hindex, hmut, wp_modify]
  exact ⟨trivial, rfl⟩

theorem saveHeader_active_full (hactive : d.isActive = true)
    (hheight : d.height = some h) (hout : ¬ (h < s.metadata.headersFileSize ∧ h < 2 ^ 31)) :
    wp (saveHeader B d) (fun r _ => ∃ e, r = .error e ∧ IsFull e) s := by
  unfold saveHeader
  rw [wp_modify_bind]
  refine warningIfFull_full ?_
  rw [hactive]
  simp only [if_true, writeHeaderToStorage, wp_bind, wp_lift, hheight, Option.getD_some]
  by_cases hindex : h < 2 ^ 31
  · have hlen : s.metadata.headersFileSize ≤ h := by
      by_contra hlt
      exact hout ⟨Nat.lt_of_not_le hlt, hindex⟩
    have hmut : getDiskHeaderMut { s with cache := s.cache.put (d.blockHash B) d } ⟨false, h⟩ =
        .error .fullIndex := if_pos hlen
    simp only [Index.new_eq hindex, andThen_ok, wp_bind, wp_read, wp_lift, id, hmut]
    exact ⟨_, rfl, .inl rfl⟩
  · have hnew : Index.new h = .error .oversizedIndex := if_pos (Nat.not_lt.mp hindex)
    rw [hnew]
    exact ⟨_, rfl, .inr rfl⟩

section

variable (hinv : StoreInv B genesis k s) (hactive : d.isActive = true)
    (hheight : d.height = some h) (hpos : h ≠ 0) (hgenesis : d.blockHash B ≠ genesis)
    (hzero : d.blockHash B ≠ 0)
    (hunused : ∀ x d', s.view x = some d' → d'.isActive = true → d'.height = some h →
      x = d.blockHash B)

include hinv hactive hheight hpos hgenesis hzero hunused

theorem active_writable (hindex : h < 2 ^ 31) :
    Writable B genesis k s ⟨false, h⟩ ⟨d, d.blockHash B, 0, 0⟩ where
  nonempty := by simpa [Index.isEmpty] using hpos
  notGenesis := hgenesis
  notZero := hzero
  blockHash := rfl
  main := fun _ => ⟨hactive, hheight, hindex⟩
  fork := fun h => by cases h
  unused := by
    intro b hb heq
    -- the bucket points to the record of the height, which is an active header of the map
    have hread := hinv.core.readable b hb
    have hnonempty : (s.indexMap b).isEmpty = false := by
      rw [heq]
      simpa [Index.isEmpty] using hpos
    have hkey : keyAt s b = some (s.slot (s.indexMap b)).hash :=
      keyAt_eq_some.mpr ⟨hnonempty, rfl⟩
    have hview := view_mem hinv.core hb hkey
    rw [heq] at hread hview
    have hwritten : (s.headers h).hash ≠ 0 := hread.written
    rcases hinv.core.mainSlots h hwritten with ⟨hact, hhh, -⟩
    rw [hkey, heq]
    exact congrArg some (hunused _ _ hview hact hhh)

theorem saveIndexed_spec (hroom : ActiveRoom s h) :
    wp (saveIndexed B d (d.blockHash B) h) (fun r s' => r = .ok () ∧ Saved B genesis k s d s' ∧
      s'.headers = Function.update s.headers h ⟨d, d.blockHash B, 0, 0⟩ ∧
      s'.metadata.forkCount = s.metadata.forkCount ∧ s'.forkHeaders = s.forkHeaders) s := by
  have hw := active_writable hinv hactive hheight hpos hgenesis hzero hunused hroom.index
  rcases save_step hinv hw hroom.inside hroom.bucket with ⟨b, o, hrun, ho, hafter⟩
  rcases hafter s.metadata.forkCount (Nat.le_refl _) (fun hf => by cases hf) with ⟨hinv', hview⟩
  unfold saveIndexed
  rw [wp_bind]
  refine wp_mono (saveHeader_active hactive hheight hroom.inside hroom.index) ?_
  rintro r s' ⟨rfl, rfl⟩
  rw [andThen_ok]
  unfold updateBlockIndex
  rw [wp_bind, wp_lift, Index.new_eq hroom.index, andThen_ok]
  refine warningIfFull_ok ?_
  unfold wp
  rw [hrun]
  exact ⟨rfl, ⟨hinv', hview, frame_withIndex s ho _⟩,
    written_main_headers s h ⟨d, d.blockHash B, 0, 0⟩, rfl, rfl⟩

/-- A best-chain header that stands at its height is saved in its place, and needs no new entry of
the index. -/
theorem saveHeader_again {e : DiskBlockHeader} (he : s.view (d.blockHash B) = some e)
    (hactive' : e.isActive = true) (hheight' : e.height = some h) :
    wp (saveHeader B d) (fun r s' => r = .ok () ∧ Saved B genesis k s d s' ∧
      s'.metadata.forkCount = s.metadata.forkCount) s := by
  rcases view_active hinv.core he hactive' with ⟨n, hn, hinside, hindex, -, -, hbucket⟩
  obtain rfl : h = n := Option.some.inj (hheight'.symm.trans hn)
  rcases hbucket hgenesis with ⟨b, hb, hpoints, hkey⟩
  have hw := active_writable hinv hactive hheight hpos hgenesis hzero hunused hindex
  have hcore := written_core hinv hw
  refine wp_mono (saveHeader_active hactive hheight hinside hindex) ?_
  rintro r s' ⟨rfl, rfl⟩
  have hview : (s.written ⟨false, h⟩ ⟨d, d.blockHash B, 0, 0⟩).view =
      Function.update s.view (d.blockHash B) (some d) := by
    funext x
    by_cases hx : x = d.blockHash B
    · subst hx
      have hkey' := (keyAt_setSlot (hw.withCache (s.cache.put (d.blockHash B) d)) hb).trans hkey
      rw [Function.update_self, view_mem hcore hb hkey']
      unfold written
      rw [setSlot_indexMap, hpoints, slot_setSlot, if_pos rfl]
    · rw [Function.update_of_ne hx]
      exact view_written hinv hw hx
  refine ⟨rfl, ⟨⟨hcore, ?_⟩, hview, ⟨rfl, rfl, rfl, rfl, rfl, ?_⟩⟩, rfl⟩
  · unfold Coherent
    rw [hview]
    exact hinv.coherent.put (d.blockHash B) d
  · rw [he]
    rfl

theorem saveIndexed_full (hroom : ¬ ActiveRoom s h) :
    wp (saveIndexed B d (d.blockHash B) h) (fun r _ => ∃ e, r = .error e ∧ IsFull e) s := by
  unfold saveIndexed
  rw [wp_bind]
  by_cases hin : h < s.metadata.headersFileSize ∧ h < 2 ^ 31
  · have hw := active_writable hinv hactive hheight hpos hgenesis hzero hunused hin.2
    refine wp_mono (saveHeader_active hactive hheight hin.1 hin.2) ?_
    rintro r s' ⟨rfl, rfl⟩
    rw [andThen_ok]
    unfold updateBlockIndex
    rw [wp_bind, wp_lift, Index.new_eq hin.2, andThen_ok]
    refine warningIfFull_full ?_
    unfold wp
    rw [written_full hinv hw fun hlt => hroom ⟨hin.1, hin.2, hlt⟩]
    exact ⟨_, rfl, .inl rfl⟩
  · refine wp_mono (saveHeader_active_full hactive hheight hin) ?_
    rintro r s' ⟨e, rfl, hfull⟩
    exact ⟨e, rfl, hfull⟩

end

/-! ## The genesis header -/

/-- The entry of the genesis header is the position that empty buckets have, so writing it changes
nothing. -/
theorem addIndexEntry_genesis (hcore : StoreCore B genesis k s)
    (hroom : s.metadata.blockIndexOccupancy + 1 < 2 ^ k) :
    addIndexEntry genesis ⟨false, 0⟩ s = (.ok (), s) := by
  have hcheck : ¬ s.metadata.indexCapacity ≤ s.metadata.blockIndexOccupancy + 1 := by
    rw [hcore.capacity]
    omega
  rcases hashMapFindPos_genesis hcore with ⟨b, -, hnone, hfind⟩
  have hset : s.setIndexForHash genesis ⟨false, 0⟩ = .ok (false, s) := by
    unfold setIndexForHash
    rw [hfind]
    have hsame : Function.update s.indexMap b ⟨false, 0⟩ = s.indexMap := by
      rw [← keyAt_eq_none.mp hnone, Function.update_eq_self]
    change Except.ok (false, { s with indexMap := Function.update s.indexMap b ⟨false, 0⟩ }) = _
    rw [hsame]
  unfold addIndexEntry
  simp only [if_neg hcheck, hset]

section Genesis

variable {config : FlatChainStoreConfig} {d : DiskBlockHeader}

def genesisStore (config : FlatChainStoreConfig) (d : DiskBlockHeader) (genesis : BlockHash) :
    FlatChainStore :=
  (createChainStore config).written ⟨false, 0⟩ ⟨d, genesis, 0, 0⟩

theorem keyAt_genesisStore (b : Nat) : keyAt (genesisStore config d genesis) b = none := rfl

theorem saveHeader_genesis (hactive : d.isActive = true) (hheight : d.height = some 0) :
    wp (saveHeader B d) (fun r s' => r = .ok () →
      0 < (createChainStore config).metadata.headersFileSize ∧
        s' = genesisStore config d (d.blockHash B)) (createChainStore config) := by
  by_cases hinside : 0 < (createChainStore config).metadata.headersFileSize
  · refine wp_mono (saveHeader_active hactive hheight hinside (Nat.two_pow_pos 31)) ?_
    rintro r s' ⟨-, hs'⟩ -
    exact ⟨hinside, hs'⟩
  · refine wp_mono (saveHeader_active_full hactive hheight fun h => hinside h.1) ?_
    rintro r s' ⟨e, rfl, -⟩ hok
    cases hok

theorem updateBlockIndex_genesis (hcore : StoreCore B genesis k s) :
    wp (updateBlockIndex 0 genesis) (fun r s' => r = .ok () → s' = s) s := by
  by_cases hroom : s.metadata.blockIndexOccupancy + 1 < 2 ^ k
  · refine wp_mono (warningIfFull_ok (P := (· = s)) ?_) fun r s' h _ => h.2
    unfold wp
    rw [addIndexEntry_genesis hcore hroom]
    exact ⟨rfl, rfl⟩
  · refine wp_mono (warningIfFull_full ?_) ?_
    · unfold wp
      rw [addIndexEntry_full hcore _ _ hroom]
      exact ⟨_, rfl, .inl rfl⟩
    · rintro r s' ⟨e, rfl, -⟩ hok
      cases hok

theorem slot_genesisStore (i : Index) :
    (i = ⟨false, 0⟩ ∧ (genesisStore config d genesis).slot i = ⟨d, genesis, 0, 0⟩) ∨
      ((genesisStore config d genesis).slot i).hash = 0 := by
  unfold genesisStore written
  rw [slot_setSlot]
  by_cases hi : i = ⟨false, 0⟩
  · exact .inl ⟨hi, if_pos hi⟩
  · rw [if_neg hi]
    right
    rcases i with ⟨fork, pos⟩
    cases fork <;> rfl

theorem genesisStore_core (hsize : IndexRounds config)
    (hinside : 0 < (createChainStore config).metadata.headersFileSize) (hzero : genesis ≠ 0)
    (hactive : d.isActive = true) (hheight : d.height = some 0) (hhash : d.blockHash B = genesis) :
    StoreCore B genesis (indexBits config) (genesisStore config d genesis) where
  sizeBound := hsize.indexSize.1
  size := hsize.indexSize.2
  capacity := hsize.indexSize.2
  genesisInside := hinside
  genesisHash := hzero
  genesisSlot := rfl
  readable := fun b _ => ⟨hinside, hzero⟩
  foreign := fun b _ h => by cases h
  table := ⟨fun _ _ _ h => (nomatch h), fun _ _ _ _ _ h => (nomatch h)⟩
  occupancy := by
    have hnone : Probing.occupancy (2 ^ indexBits config)
        (keyAt (genesisStore config d genesis)) = 0 := by
      simp [Probing.occupancy, keyAt_genesisStore]
    rw [hnone]
    rfl
  free := Nat.two_pow_pos _
  hashes := by
    intro i hi
    rcases slot_genesisStore i with ⟨-, hslot⟩ | hnone
    · rw [hslot]
      exact hhash
    · exact absurd hnone hi
  mainSlots := by
    intro h hh
    rcases slot_genesisStore ⟨false, h⟩ with ⟨hzero, hslot⟩ | hnone
    · cases hzero
      exact ⟨hactive, hheight, Nat.two_pow_pos 31⟩
    · exact absurd hnone hh
  forkSlots := fun n hn => absurd rfl hn
  forkFresh := fun b _ h => by cases h

theorem genesisStore_inv (hcore : StoreCore B genesis k (genesisStore config d genesis)) :
    StoreInv B genesis k (genesisStore config d genesis) ∧
      (genesisStore config d genesis).view =
        Function.update (fun _ => none) genesis (some d) := by
  have hview : (genesisStore config d genesis).view =
      Function.update (fun _ => none) genesis (some d) := by
    funext x
    by_cases hx : x = genesis
    · subst hx
      rw [Function.update_self]
      exact view_genesis hcore
    · rw [Function.update_of_ne hx]
      exact view_notMem hcore hx fun b _ h => nomatch h
  refine ⟨⟨hcore, ?_⟩, hview⟩
  have hcache : (genesisStore config d genesis).cache =
      (createChainStore config).cache.put genesis d := rfl
  unfold Coherent
  rw [hview, hcache]
  exact (Lru.agrees_empty _ _).put genesis d

end Genesis

end Floresta.FlatChainStore
