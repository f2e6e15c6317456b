import Floresta.Lib.Probing
import Floresta.Store.FlatChainStore
import Mathlib.Data.Nat.Bitwise

/-!
# Refinement — the store as a map from hashes to headers

Cache, block index and the two header files together are one map, `view`.  `StoreCore` is what the
files have to satisfy for that, `Coherent` what the cache has to.  Reading a header reads the map;
saving one, with its index entry, updates it at one hash.
-/

namespace Floresta.FlatChainStore

variable {record : HashedDiskHeader} {d : DiskBlockHeader} {i : Index}
variable {b : Nat} {hash : BlockHash}

/-! ## Buckets -/

/-- The hash whose position a bucket holds. -/
def keyAt (s : FlatChainStore) (b : Nat) : Option BlockHash :=
  if (s.indexMap b).isEmpty then none else some (s.slot (s.indexMap b)).hash

theorem indexHashFn_lt (hash : BlockHash) : (indexHashFn hash).toNat < 2 ^ 64 :=
  lt_trans (indexHashFn hash).toNat_lt (by decide)

/-- The buckets that the probing loop visits for a hash, in an index of `2 ^ k` buckets. -/
def scheme {k : Nat} (hk : k ≤ 64) : Probing.Scheme BlockHash (2 ^ k) where
  pos hash i := ((indexHashFn hash).toNat + i) % 2 ^ 64 &&& (2 ^ k - 1)
  lt hash i := by
    rw [Nat.and_two_pow_sub_one_eq_mod]
    exact Nat.mod_lt _ (Nat.two_pow_pos k)
  covers hash b hb := by
    have hpos : 0 < 2 ^ k := Nat.two_pow_pos k
    have hlow : (indexHashFn hash).toNat % 2 ^ k < 2 ^ k := Nat.mod_lt _ hpos
    refine ⟨(b + (2 ^ k - (indexHashFn hash).toNat % 2 ^ k)) % 2 ^ k, Nat.mod_lt _ hpos, ?_⟩
    have hround : (indexHashFn hash).toNat % 2 ^ k +
        (b + (2 ^ k - (indexHashFn hash).toNat % 2 ^ k)) = b + 2 ^ k := by omega
    rw [Nat.and_two_pow_sub_one_eq_mod, Nat.mod_mod_of_dvd _ (Nat.pow_dvd_pow 2 hk),
      ← Nat.mod_add_mod, Nat.add_mod_mod, hround, Nat.add_mod_right, Nat.mod_eq_of_lt hb]

/-- The position can be read: it is inside its file, and its record was written. -/
structure Readable (s : FlatChainStore) (i : Index) : Prop where
  inside : i.pos < s.slotCount i
  written : (s.slot i).hash ≠ 0

/-- What the files satisfy between two operations.  The index has `2 ^ k` buckets. -/
structure StoreCore (B : Bitcoin) (genesis : BlockHash) (k : Nat) (s : FlatChainStore) : Prop where
  sizeBound : k ≤ 64
  size : s.indexSize = 2 ^ k
  capacity : s.metadata.indexCapacity = 2 ^ k
  genesisInside : 0 < s.metadata.headersFileSize
  genesisHash : genesis ≠ 0
  genesisSlot : (s.headers 0).hash = genesis
  readable : ∀ b < 2 ^ k, Readable s (s.indexMap b)
  foreign : ∀ b < 2 ^ k, keyAt s b ≠ some genesis
  table : Probing.Table (scheme sizeBound) (keyAt s)
  occupancy : s.metadata.blockIndexOccupancy = Probing.occupancy (2 ^ k) (keyAt s)
  free : s.metadata.blockIndexOccupancy < 2 ^ k
  hashes : ∀ i, (s.slot i).hash ≠ 0 → (s.slot i).header.blockHash B = (s.slot i).hash
  mainSlots : ∀ h, (s.headers h).hash ≠ 0 →
    (s.headers h).header.isActive = true ∧ (s.headers h).header.height = some h ∧ h < 2 ^ 31
  forkSlots : ∀ n, (s.forkHeaders n).hash ≠ 0 → (s.forkHeaders n).header.isActive = false
  forkFresh : ∀ b < 2 ^ k, (s.indexMap b).fork = true → (s.indexMap b).pos < s.metadata.forkCount

/-- The map that the block index and the header files stand for. -/
def view (s : FlatChainStore) (hash : BlockHash) : Option DiskBlockHeader :=
  match s.getHeaderByHash hash with
  | .ok header => header
  | .error _ => none

/-- The cache holds nothing but entries of the map. -/
def Coherent (s : FlatChainStore) : Prop := s.cache.Agrees s.view

/-- Two stores with the same index that read the same hashes and headers are the same map. -/
theorem view_congr {s s' : FlatChainStore} (hmap : s'.indexMap = s.indexMap)
    (hsize : s'.indexSize = s.indexSize)
    (hread : ∀ i, (s'.getDiskHeader i).map (fun r => (r.header, r.hash)) =
      (s.getDiskHeader i).map fun r => (r.header, r.hash)) : s'.view = s.view := by
  have hprobe : ∀ hash rounds n, s'.probe hash rounds n = s.probe hash rounds n := by
    intro hash rounds
    induction rounds with
    | zero =>
      intro n
      rfl
    | succ rounds ih =>
      intro n
      have hcandidate := hread (s.indexMap (n &&& (s.indexSize - 1)))
      rw [probe, probe]
      simp only [hmap, hsize]
      cases hr : s.getDiskHeader (s.indexMap (n &&& (s.indexSize - 1))) with
      | error e =>
        cases hr' : s'.getDiskHeader (s.indexMap (n &&& (s.indexSize - 1))) with
        | error e' =>
          rw [hr, hr'] at hcandidate
          have heq : e' = e := by simpa [Except.map] using hcandidate
          rw [heq]
          rfl
        | ok r' =>
          rw [hr, hr'] at hcandidate
          cases hcandidate
      | ok r =>
        cases hr' : s'.getDiskHeader (s.indexMap (n &&& (s.indexSize - 1))) with
        | error e' =>
          rw [hr, hr'] at hcandidate
          cases hcandidate
        | ok r' =>
          rw [hr, hr'] at hcandidate
          have heq : r'.header = r.header ∧ r'.hash = r.hash := by
            simpa [Except.map] using hcandidate
          have hbind : ∀ (x : HashedDiskHeader)
              (f : HashedDiskHeader → Except FlatChainstoreError IndexBucket),
              (Except.ok x >>= f) = f x := fun _ _ => rfl
          rw [hbind, hbind, heq.1, heq.2, ih]
  funext hash
  unfold view getHeaderByHash hashMapFindPos
  rw [hsize, hprobe]

section Core

variable {B : Bitcoin} {genesis : BlockHash} {k : Nat} {s : FlatChainStore}

theorem isEmpty_iff : i.isEmpty = true ↔ i = ⟨false, 0⟩ := by
  rcases i with ⟨fork, pos⟩
  cases fork <;> simp [Index.isEmpty]

theorem keyAt_eq_none : keyAt s b = none ↔ s.indexMap b = ⟨false, 0⟩ := by
  unfold keyAt
  rw [← isEmpty_iff]
  by_cases h : (s.indexMap b).isEmpty = true <;> simp [h]

theorem keyAt_eq_some :
    keyAt s b = some hash ↔
      (s.indexMap b).isEmpty = false ∧ (s.slot (s.indexMap b)).hash = hash := by
  unfold keyAt
  by_cases h : (s.indexMap b).isEmpty = true <;> simp [h]

theorem getDiskHeader_readable (h : Readable s i) : s.getDiskHeader i = .ok (s.slot i) := by
  unfold getDiskHeader
  rw [if_neg (Nat.not_le.mpr h.inside), if_neg h.written]

/-! ## The probing loop -/

theorem probe_succ (hash : BlockHash) (rounds n : Nat)
    (hread : Readable s (s.indexMap (n &&& (s.indexSize - 1)))) :
    s.probe hash (rounds + 1) n =
      if (s.slot (s.indexMap (n &&& (s.indexSize - 1)))).hash = hash then
        .ok (.occupied (n &&& (s.indexSize - 1))
          (s.slot (s.indexMap (n &&& (s.indexSize - 1)))).header)
      else if (s.indexMap (n &&& (s.indexSize - 1))).isEmpty then
        .ok (.empty (n &&& (s.indexSize - 1)))
      else s.probe hash rounds ((n + 1) % 2 ^ 64) := by
  rw [probe]
  simp only [getDiskHeader_readable hread]
  rfl

theorem scheme_pos (hcore : StoreCore B genesis k s) (hash : BlockHash) (i : Nat) :
    (scheme hcore.sizeBound).pos hash i =
      ((indexHashFn hash).toNat + i) % 2 ^ 64 &&& (s.indexSize - 1) := by
  rw [hcore.size]
  rfl

theorem probe_passes (hcore : StoreCore B genesis k s) {i : Nat}
    (hpass : Probing.Passes (scheme hcore.sizeBound) (keyAt s) hash i) (rounds : Nat) :
    s.probe hash (rounds + i) (indexHashFn hash).toNat =
      s.probe hash rounds (((indexHashFn hash).toNat + i) % 2 ^ 64) := by
  induction i generalizing rounds with
  | zero =>
    rw [Nat.add_zero, Nat.add_zero, Nat.mod_eq_of_lt (indexHashFn_lt hash)]
  | succ i ih =>
    have hprev : Probing.Passes (scheme hcore.sizeBound) (keyAt s) hash i :=
      fun j hj => hpass j (Nat.lt_succ_of_lt hj)
    rcases hpass i (Nat.lt_succ_self i) with ⟨other, hother, hne⟩
    rcases keyAt_eq_some.mp hother with ⟨hfull, hslot⟩
    have hread := hcore.readable _ ((scheme hcore.sizeBound).lt hash i)
    rw [scheme_pos hcore] at hfull hslot hread
    have hrounds : rounds + (i + 1) = rounds + 1 + i := by omega
    have hnext : (((indexHashFn hash).toNat + i) % 2 ^ 64 + 1) % 2 ^ 64 =
        ((indexHashFn hash).toNat + (i + 1)) % 2 ^ 64 := by
      rw [Nat.mod_add_mod, Nat.add_assoc]
    rw [hrounds, ih hprev, probe_succ hash rounds _ hread, hslot, if_neg hne, hfull, hnext]
    simp

/-- Where the search stops: after passing buckets of other hashes, it looks at bucket `i`. -/
theorem hashMapFindPos_at (hcore : StoreCore B genesis k s) {i : Nat} (hi : i < 2 ^ k)
    (hpass : Probing.Passes (scheme hcore.sizeBound) (keyAt s) hash i)
    (hstop : keyAt s ((scheme hcore.sizeBound).pos hash i) = some hash ∨
      keyAt s ((scheme hcore.sizeBound).pos hash i) = none) :
    s.hashMapFindPos hash =
      if (s.slot (s.indexMap ((scheme hcore.sizeBound).pos hash i))).hash = hash then
        .ok (.occupied ((scheme hcore.sizeBound).pos hash i)
          (s.slot (s.indexMap ((scheme hcore.sizeBound).pos hash i))).header)
      else .ok (.empty ((scheme hcore.sizeBound).pos hash i)) := by
  have hread := hcore.readable _ ((scheme hcore.sizeBound).lt hash i)
  rw [scheme_pos hcore] at hstop hread ⊢
  have hsize : s.indexSize = (2 ^ k - i - 1) + 1 + i := by
    rw [hcore.size]
    omega
  unfold hashMapFindPos
  rw [show s.probe hash s.indexSize (indexHashFn hash).toNat =
    s.probe hash ((2 ^ k - i - 1) + 1 + i) (indexHashFn hash).toNat by rw [← hsize],
    probe_passes hcore hpass, probe_succ hash _ _ hread]
  rcases hstop with hmem | hnone
  · rw [if_pos (keyAt_eq_some.mp hmem).2, if_pos (keyAt_eq_some.mp hmem).2]
  · have hempty := isEmpty_iff.mpr (keyAt_eq_none.mp hnone)
    rw [if_pos hempty]

/-! ## Lookups -/

theorem hashMapFindPos_mem (hcore : StoreCore B genesis k s) (hb : b < 2 ^ k)
    (hkey : keyAt s b = some hash) :
    s.hashMapFindPos hash = .ok (.occupied b (s.slot (s.indexMap b)).header) := by
  rcases hcore.table.search_mem hb hkey with ⟨i, hi, rfl, hpass⟩
  rw [hashMapFindPos_at hcore hi hpass (.inl hkey), if_pos (keyAt_eq_some.mp hkey).2]

theorem exists_free (hcore : StoreCore B genesis k s) : ∃ b < 2 ^ k, keyAt s b = none := by
  apply Probing.exists_free
  rw [← hcore.occupancy]
  exact hcore.free

theorem slot_empty (hnone : keyAt s b = none) : s.slot (s.indexMap b) = s.headers 0 := by
  rw [keyAt_eq_none.mp hnone]
  rfl

section

variable (hcore : StoreCore B genesis k s)

include hcore

theorem hashMapFindPos_genesis :
    ∃ b < 2 ^ k, keyAt s b = none ∧
      s.hashMapFindPos genesis = .ok (.occupied b (s.headers 0).header) := by
  rcases Probing.search_notMem hcore.foreign (exists_free hcore) with ⟨i, hi, hnone, hpass⟩
  refine ⟨_, (scheme hcore.sizeBound).lt genesis i, hnone, ?_⟩
  rw [hashMapFindPos_at hcore hi hpass (.inr hnone), slot_empty hnone,
    if_pos hcore.genesisSlot]

theorem hashMapFindPos_notMem (hgenesis : hash ≠ genesis)
    (hnot : ∀ b < 2 ^ k, keyAt s b ≠ some hash) :
    ∃ i < 2 ^ k, keyAt s ((scheme hcore.sizeBound).pos hash i) = none ∧
      Probing.Passes (scheme hcore.sizeBound) (keyAt s) hash i ∧
      s.hashMapFindPos hash = .ok (.empty ((scheme hcore.sizeBound).pos hash i)) := by
  rcases Probing.search_notMem hnot (exists_free hcore) with ⟨i, hi, hnone, hpass⟩
  refine ⟨i, hi, hnone, hpass, ?_⟩
  have hother : (s.headers 0).hash ≠ hash := by
    rw [hcore.genesisSlot]
    exact fun h => hgenesis h.symm
  rw [hashMapFindPos_at hcore hi hpass (.inr hnone), slot_empty hnone, if_neg hother]

theorem view_mem (hb : b < 2 ^ k) (hkey : keyAt s b = some hash) :
    s.view hash = some (s.slot (s.indexMap b)).header := by
  unfold view getHeaderByHash
  rw [hashMapFindPos_mem hcore hb hkey]
  rfl

theorem StoreCore.occupancy_le (hashes : Finset BlockHash)
    (hhashes : ∀ hash d, s.view hash = some d → hash ∈ hashes) :
    s.metadata.blockIndexOccupancy ≤ hashes.card := by
  rw [hcore.occupancy]
  exact hcore.table.occupancy_le fun b hb hash hkey => hhashes hash _ (view_mem hcore hb hkey)

theorem view_genesis : s.view genesis = some (s.headers 0).header := by
  rcases hashMapFindPos_genesis hcore with ⟨b, -, -, hfind⟩
  unfold view getHeaderByHash
  rw [hfind]
  rfl

theorem view_notMem (hgenesis : hash ≠ genesis) (hnot : ∀ b < 2 ^ k, keyAt s b ≠ some hash) :
    s.view hash = none := by
  rcases hashMapFindPos_notMem hcore hgenesis hnot with ⟨i, -, -, -, hfind⟩
  unfold view getHeaderByHash
  rw [hfind]
  rfl

end

theorem hash_cases (s : FlatChainStore) (genesis : BlockHash) (k : Nat) (hash : BlockHash) :
    hash = genesis ∨ (∃ b < 2 ^ k, keyAt s b = some hash) ∨
      (hash ≠ genesis ∧ ∀ b < 2 ^ k, keyAt s b ≠ some hash) := by
  by_cases hgenesis : hash = genesis
  · exact .inl hgenesis
  · by_cases hmem : ∃ b < 2 ^ k, keyAt s b = some hash
    · exact .inr (.inl hmem)
    · push Not at hmem
      exact .inr (.inr ⟨hgenesis, hmem⟩)

section

variable (hcore : StoreCore B genesis k s)

include hcore

theorem getHeaderByHash_eq (hash : BlockHash) : s.getHeaderByHash hash = .ok (s.view hash) := by
  have hfind : ∃ bucket, s.hashMapFindPos hash = .ok bucket := by
    rcases hash_cases s genesis k hash with rfl | ⟨b, hb, hkey⟩ | ⟨hgenesis, hnot⟩
    · rcases hashMapFindPos_genesis hcore with ⟨b, -, -, hfind⟩
      exact ⟨_, hfind⟩
    · exact ⟨_, hashMapFindPos_mem hcore hb hkey⟩
    · rcases hashMapFindPos_notMem hcore hgenesis hnot with ⟨i, -, -, -, hfind⟩
      exact ⟨_, hfind⟩
  rcases hfind with ⟨bucket, hfind⟩
  unfold view getHeaderByHash
  rw [hfind]
  cases bucket <;> rfl

theorem view_eq_some (h : s.view hash = some d) :
    ∃ i, Readable s i ∧ (s.slot i).hash = hash ∧ (s.slot i).header = d ∧
      (hash ≠ genesis → ∃ b < 2 ^ k, s.indexMap b = i ∧ keyAt s b = some hash) := by
  rcases hash_cases s genesis k hash with rfl | ⟨b, hb, hkey⟩ | ⟨hgenesis, hnot⟩
  · refine ⟨⟨false, 0⟩, ⟨hcore.genesisInside, ?_⟩, hcore.genesisSlot, ?_, fun hne => absurd rfl hne⟩
    · have hslot : s.slot ⟨false, 0⟩ = s.headers 0 := rfl
      rw [hslot, hcore.genesisSlot]
      exact hcore.genesisHash
    · exact Option.some.inj ((view_genesis hcore).symm.trans h)
  · refine ⟨s.indexMap b, hcore.readable b hb, (keyAt_eq_some.mp hkey).2, ?_,
      fun _ => ⟨b, hb, rfl, hkey⟩⟩
    exact Option.some.inj ((view_mem hcore hb hkey).symm.trans h)
  · rw [view_notMem hcore hgenesis hnot] at h
    cases h

theorem view_ne_zero (h : s.view hash = some d) : hash ≠ 0 := by
  rcases view_eq_some hcore h with ⟨i, hread, hhash, -, -⟩
  rw [← hhash]
  exact hread.written

theorem view_active (h : s.view hash = some d) (hactive : d.isActive = true) :
    ∃ n, d.height = some n ∧ n < s.metadata.headersFileSize ∧ n < 2 ^ 31 ∧
      (s.headers n).hash = hash ∧ (s.headers n).header = d ∧
      (hash ≠ genesis → ∃ b < 2 ^ k, s.indexMap b = ⟨false, n⟩ ∧ keyAt s b = some hash) := by
  rcases view_eq_some hcore h with ⟨⟨fork, n⟩, hread, hhash, hheader, hbucket⟩
  cases fork with
  | true =>
    have hwritten : (s.forkHeaders n).hash ≠ 0 := hread.written
    have hinactive := hcore.forkSlots n hwritten
    have hd : (s.forkHeaders n).header = d := hheader
    rw [hd, hactive] at hinactive
    cases hinactive
  | false =>
    have hwritten : (s.headers n).hash ≠ 0 := hread.written
    have hd : (s.headers n).header = d := hheader
    have hslot := hcore.mainSlots n hwritten
    rw [hd] at hslot
    exact ⟨n, hslot.2.1, hread.inside, hslot.2.2, hhash, hd, hbucket⟩

end

theorem isActive_height (h : d.isActive = true) : ∃ n, d.height = some n := by
  cases d with
  | fullyValid _ n => exact ⟨n, rfl⟩
  | assumedValid _ n => exact ⟨n, rfl⟩
  | headersOnly _ n => exact ⟨n, rfl⟩
  | orphan _ => cases h
  | inFork _ _ => cases h
  | invalidChain _ => cases h

/-! ## Writing records -/

section

variable (s : FlatChainStore)

theorem slot_setSlot (i j : Index) (record : HashedDiskHeader) :
    (s.setSlot i record).slot j = if j = i then record else s.slot j := by
  rcases i with ⟨fi, ni⟩
  rcases j with ⟨fj, nj⟩
  cases fi <;> cases fj <;> simp [setSlot, slot, Index.isMainChain, Function.update_apply]

@[simp] theorem setSlot_metadata (i : Index) (record : HashedDiskHeader) :
    (s.setSlot i record).metadata = s.metadata := by
  unfold setSlot
  split <;> rfl

@[simp] theorem setSlot_indexMap (i : Index) (record : HashedDiskHeader) :
    (s.setSlot i record).indexMap = s.indexMap := by
  unfold setSlot
  split <;> rfl

@[simp] theorem setSlot_indexSize (i : Index) (record : HashedDiskHeader) :
    (s.setSlot i record).indexSize = s.indexSize := by
  unfold setSlot
  split <;> rfl

@[simp] theorem setSlot_cache (i : Index) (record : HashedDiskHeader) :
    (s.setSlot i record).cache = s.cache := by
  unfold setSlot
  split <;> rfl

@[simp] theorem setSlot_accumulatorFile (i : Index) (record : HashedDiskHeader) :
    (s.setSlot i record).accumulatorFile = s.accumulatorFile := by
  unfold setSlot
  split <;> rfl

theorem setSlot_headers (i : Index) (record : HashedDiskHeader) (h : Nat) :
    (s.setSlot i record).headers h = if i = ⟨false, h⟩ then record else s.headers h := by
  have hslot := slot_setSlot s i ⟨false, h⟩ record
  have hleft : (s.setSlot i record).slot ⟨false, h⟩ = (s.setSlot i record).headers h := rfl
  have hright : s.slot ⟨false, h⟩ = s.headers h := rfl
  rw [hleft, hright] at hslot
  rw [hslot]
  exact if_congr ⟨Eq.symm, Eq.symm⟩ rfl rfl

theorem setSlot_forkHeaders (i : Index) (record : HashedDiskHeader) (n : Nat) :
    (s.setSlot i record).forkHeaders n = if i = ⟨true, n⟩ then record else s.forkHeaders n := by
  have hslot := slot_setSlot s i ⟨true, n⟩ record
  have hleft : (s.setSlot i record).slot ⟨true, n⟩ = (s.setSlot i record).forkHeaders n := rfl
  have hright : s.slot ⟨true, n⟩ = s.forkHeaders n := rfl
  rw [hleft, hright] at hslot
  rw [hslot]
  exact if_congr ⟨Eq.symm, Eq.symm⟩ rfl rfl

end

/-- A record that fits its position, at a position that no other hash uses. -/
structure Writable (B : Bitcoin) (genesis : BlockHash) (k : Nat) (s : FlatChainStore) (i : Index)
    (record : HashedDiskHeader) : Prop where
  nonempty : i.isEmpty = false
  notGenesis : record.hash ≠ genesis
  notZero : record.hash ≠ 0
  blockHash : record.header.blockHash B = record.hash
  main : i.fork = false → record.header.isActive = true ∧ record.header.height = some i.pos ∧
    i.pos < 2 ^ 31
  fork : i.fork = true → record.header.isActive = false
  unused : ∀ b < 2 ^ k, s.indexMap b = i → keyAt s b = some record.hash

theorem Writable.ne_origin
    (h : Writable B genesis k s i record) : i ≠ ⟨false, 0⟩ := by
  intro heq
  have hne := h.nonempty
  rw [isEmpty_iff.mpr heq] at hne
  cases hne

theorem keyAt_setSlot (hw : Writable B genesis k s i record) (hb : b < 2 ^ k) :
    keyAt (s.setSlot i record) b = keyAt s b := by
  by_cases hi : s.indexMap b = i
  · have hkey := hw.unused b hb hi
    rw [hkey, keyAt_eq_some, setSlot_indexMap, slot_setSlot, if_pos hi]
    exact ⟨(keyAt_eq_some.mp hkey).1, rfl⟩
  · unfold keyAt
    rw [setSlot_indexMap, slot_setSlot, if_neg hi]

theorem readable_setSlot {i j : Index} (hrecord : record.hash ≠ 0)
    (h : Readable s j) : Readable (s.setSlot i record) j := by
  refine ⟨?_, ?_⟩
  · have hcount : (s.setSlot i record).slotCount j = s.slotCount j := by
      simp [slotCount]
    rw [hcount]
    exact h.inside
  · rw [slot_setSlot]
    split
    · exact hrecord
    · exact h.written

/-- A record is written over, as long as the index reads as before. -/
theorem StoreCore.overwrite (hcore : StoreCore B genesis k s) (hzero : record.hash ≠ 0)
    (hblock : record.header.blockHash B = record.hash)
    (horigin : i = ⟨false, 0⟩ → record.hash = genesis)
    (hmain : i.fork = false → record.header.isActive = true ∧
      record.header.height = some i.pos ∧ i.pos < 2 ^ 31)
    (hfork : i.fork = true → record.header.isActive = false)
    (hkeys : ∀ b < 2 ^ k, keyAt (s.setSlot i record) b = keyAt s b) :
    StoreCore B genesis k (s.setSlot i record) where
  sizeBound := hcore.sizeBound
  size := by simpa using hcore.size
  capacity := by simpa using hcore.capacity
  genesisInside := by simpa using hcore.genesisInside
  genesisHash := hcore.genesisHash
  genesisSlot := by
    rw [setSlot_headers]
    split
    · exact horigin ‹_›
    · exact hcore.genesisSlot
  readable := by
    intro b hb
    rw [setSlot_indexMap]
    exact readable_setSlot hzero (hcore.readable b hb)
  foreign := by
    intro b hb
    rw [hkeys b hb]
    exact hcore.foreign b hb
  table := hcore.table.congr hkeys
  occupancy := by
    rw [setSlot_metadata, Probing.occupancy_congr hkeys]
    exact hcore.occupancy
  free := by simpa using hcore.free
  hashes := by
    intro j hj
    rw [slot_setSlot] at hj ⊢
    split
    · exact hblock
    · rename_i hne
      rw [if_neg hne] at hj
      exact hcore.hashes j hj
  mainSlots := by
    intro h hh
    rw [setSlot_headers] at hh ⊢
    split
    · rename_i heq
      subst heq
      exact hmain rfl
    · rename_i hne
      rw [if_neg hne] at hh
      exact hcore.mainSlots h hh
  forkSlots := by
    intro n hn
    rw [setSlot_forkHeaders] at hn ⊢
    split
    · rename_i heq
      subst heq
      exact hfork rfl
    · rename_i hne
      rw [if_neg hne] at hn
      exact hcore.forkSlots n hn
  forkFresh := by simpa using hcore.forkFresh

theorem StoreCore.setSlot (hcore : StoreCore B genesis k s)
    (hw : Writable B genesis k s i record) : StoreCore B genesis k (s.setSlot i record) :=
  hcore.overwrite hw.notZero hw.blockHash (fun heq => absurd heq hw.ne_origin) hw.main hw.fork
    fun _ hb => keyAt_setSlot hw hb

theorem view_setSlot (hcore : StoreCore B genesis k s)
    (hw : Writable B genesis k s i record) (hne : hash ≠ record.hash) :
    (s.setSlot i record).view hash = s.view hash := by
  have hcore' := hcore.setSlot hw
  rcases hash_cases s genesis k hash with rfl | ⟨b, hb, hkey⟩ | ⟨hgenesis, hnot⟩
  · rw [view_genesis hcore', view_genesis hcore, setSlot_headers, if_neg hw.ne_origin]
  · have hkey' : keyAt (s.setSlot i record) b = some hash := (keyAt_setSlot hw hb).trans hkey
    have hi : s.indexMap b ≠ i := by
      intro heq
      exact hne (Option.some.inj (hkey.symm.trans (hw.unused b hb heq)))
    rw [view_mem hcore' hb hkey', view_mem hcore hb hkey, setSlot_indexMap, slot_setSlot,
      if_neg hi]
  · have hnot' : ∀ b < 2 ^ k, keyAt (s.setSlot i record) b ≠ some hash := by
      intro b hb
      rw [keyAt_setSlot hw hb]
      exact hnot b hb
    rw [view_notMem hcore' hgenesis hnot', view_notMem hcore hgenesis hnot]

/-! ## Writing index entries -/

/-- The store after a bucket was written; `occupancy` and `forkCount` are the new counters. -/
def withIndex (s : FlatChainStore) (b : Nat) (index : Index) (occupancy forkCount : Nat) :
    FlatChainStore :=
  { s with
    indexMap := Function.update s.indexMap b index
    metadata := { s.metadata with blockIndexOccupancy := occupancy, forkCount := forkCount } }

/-- Where the entry of a hash goes: over its old one, or into the empty bucket its search finds. -/
inductive Placed (hcore : StoreCore B genesis k s) (hash : BlockHash) : Nat → Nat → Prop
  | again {b : Nat} (hb : b < 2 ^ k) (hkey : keyAt s b = some hash) :
      Placed hcore hash b s.metadata.blockIndexOccupancy
  | fresh {i : Nat} (hi : i < 2 ^ k)
      (hnone : keyAt s ((scheme hcore.sizeBound).pos hash i) = none)
      (hpass : Probing.Passes (scheme hcore.sizeBound) (keyAt s) hash i)
      (hnot : ∀ b < 2 ^ k, keyAt s b ≠ some hash) :
      Placed hcore hash ((scheme hcore.sizeBound).pos hash i)
        (s.metadata.blockIndexOccupancy + 1)

theorem Placed.lt {hcore : StoreCore B genesis k s} {o : Nat}
    (h : Placed hcore hash b o) : b < 2 ^ k := by
  cases h with
  | again hb _ => exact hb
  | fresh _ _ _ _ => exact (scheme hcore.sizeBound).lt _ _

theorem addIndexEntry_ok (hcore : StoreCore B genesis k s)
    (hgenesis : hash ≠ genesis) (index : Index)
    (hroom : s.metadata.blockIndexOccupancy + 1 < 2 ^ k) :
    ∃ b o, Placed hcore hash b o ∧
      addIndexEntry hash index s = (.ok (), s.withIndex b index o s.metadata.forkCount) := by
  have hcheck : ¬ s.metadata.indexCapacity ≤ s.metadata.blockIndexOccupancy + 1 := by
    rw [hcore.capacity]
    omega
  by_cases hmem : ∃ b < 2 ^ k, keyAt s b = some hash
  · rcases hmem with ⟨b, hb, hkey⟩
    refine ⟨b, _, Placed.again hb hkey, ?_⟩
    unfold addIndexEntry setIndexForHash
    simp only [hcheck, if_false, hashMapFindPos_mem hcore hb hkey]
    rfl
  · push Not at hmem
    rcases hashMapFindPos_notMem hcore hgenesis hmem with ⟨i, hi, hnone, hpass, hfind⟩
    refine ⟨_, _, Placed.fresh hi hnone hpass hmem, ?_⟩
    unfold addIndexEntry setIndexForHash
    simp only [hcheck, if_false, hfind]
    rfl

theorem addIndexEntry_full (hcore : StoreCore B genesis k s) (hash : BlockHash) (index : Index)
    (hroom : ¬ s.metadata.blockIndexOccupancy + 1 < 2 ^ k) :
    addIndexEntry hash index s = (.error .fullIndex, s) := by
  have hcheck : s.metadata.indexCapacity ≤ s.metadata.blockIndexOccupancy + 1 := by
    rw [hcore.capacity]
    omega
  unfold addIndexEntry
  simp only [hcheck, if_true]

section WithIndex

variable {hash : BlockHash} {index : Index} {b o c : Nat}

theorem keyAt_withIndex (hnonempty : index.isEmpty = false) (hslot : (s.slot index).hash = hash)
    (o c : Nat) :
    keyAt (s.withIndex b index o c) = Function.update (keyAt s) b (some hash) := by
  funext b'
  by_cases hb : b' = b
  · subst hb
    rw [Function.update_self, keyAt_eq_some]
    have hmap : (s.withIndex b' index o c).indexMap b' = index := Function.update_self ..
    rw [hmap]
    exact ⟨hnonempty, hslot⟩
  · rw [Function.update_of_ne hb]
    have hmap : (s.withIndex b index o c).indexMap b' = s.indexMap b' := Function.update_of_ne hb ..
    unfold keyAt
    rw [hmap]
    rfl

section

variable (hcore : StoreCore B genesis k s) (hgenesis : hash ≠ genesis)
    (hnonempty : index.isEmpty = false) (hread : Readable s index)

include hcore hgenesis hnonempty hread

theorem StoreCore.withIndex (hslot : (s.slot index).hash = hash) (hplaced : Placed hcore hash b o)
    (ho : o < 2 ^ k) (hc : s.metadata.forkCount ≤ c) (hfork : index.fork = true → index.pos < c) :
    StoreCore B genesis k (s.withIndex b index o c) := by
  have hkeys := keyAt_withIndex (b := b) hnonempty hslot o c
  have hmap : ∀ b', (s.withIndex b index o c).indexMap b' =
      if b' = b then index else s.indexMap b' := by
    intro b'
    exact Function.update_apply ..
  -- over an old entry the keys stay as they are, in a fresh bucket one is added
  have htable : Probing.Table (scheme hcore.sizeBound) (keyAt (s.withIndex b index o c)) ∧
      o = Probing.occupancy (2 ^ k) (keyAt (s.withIndex b index o c)) := by
    rw [hkeys]
    cases hplaced with
    | again hb hkey =>
      have hsame : Function.update (keyAt s) b (some hash) = keyAt s := by
        rw [← hkey]
        exact Function.update_eq_self ..
      rw [hsame]
      exact ⟨hcore.table, hcore.occupancy⟩
    | fresh hi hnone hpass hnot =>
      refine ⟨hcore.table.insert hnot hi hnone hpass, ?_⟩
      rw [Probing.occupancy_insert ((scheme hcore.sizeBound).lt _ _) hnone, ← hcore.occupancy]
  exact
    { sizeBound := hcore.sizeBound
      size := hcore.size
      capacity := hcore.capacity
      genesisInside := hcore.genesisInside
      genesisHash := hcore.genesisHash
      genesisSlot := hcore.genesisSlot
      readable := by
        intro b' hb'
        rw [hmap]
        split
        · exact ⟨hread.inside, hread.written⟩
        · exact ⟨(hcore.readable b' hb').inside, (hcore.readable b' hb').written⟩
      foreign := by
        intro b' hb'
        rw [hkeys]
        by_cases hbb : b' = b
        · subst hbb
          rw [Function.update_self]
          exact fun h => hgenesis (Option.some.inj h)
        · rw [Function.update_of_ne hbb]
          exact hcore.foreign b' hb'
      table := htable.1
      occupancy := htable.2
      free := ho
      hashes := hcore.hashes
      mainSlots := hcore.mainSlots
      forkSlots := hcore.forkSlots
      forkFresh := by
        intro b' hb' hf
        rw [hmap] at hf ⊢
        split at hf
        · rw [if_pos (by assumption)]
          exact hfork hf
        · rw [if_neg (by assumption)]
          exact Nat.lt_of_lt_of_le (hcore.forkFresh b' hb' hf) hc }

theorem view_withIndex (hslot : (s.slot index).hash = hash) (hplaced : Placed hcore hash b o)
    (ho : o < 2 ^ k) (hc : s.metadata.forkCount ≤ c) (hfork : index.fork = true → index.pos < c) :
    (s.withIndex b index o c).view =
      Function.update s.view hash (some (s.slot index).header) := by
  have hcore' := hcore.withIndex hgenesis hnonempty hread hslot hplaced ho hc hfork
  have hkeys := keyAt_withIndex (b := b) hnonempty hslot o c
  have hb := hplaced.lt
  funext x
  by_cases hx : x = hash
  · subst hx
    have hkey : keyAt (s.withIndex b index o c) b = some x := by
      rw [hkeys, Function.update_self]
    rw [Function.update_self, view_mem hcore' hb hkey]
    have hmap : (s.withIndex b index o c).indexMap b = index := Function.update_self ..
    rw [hmap]
    rfl
  · rw [Function.update_of_ne hx]
    rcases hash_cases s genesis k x with rfl | ⟨b', hb', hkey⟩ | ⟨hgenesis', hnot⟩
    · rw [view_genesis hcore', view_genesis hcore]
      rfl
    · have hbb : b' ≠ b := by
        intro heq
        subst heq
        cases hplaced with
        | again _ hkey' => exact hx (Option.some.inj (hkey.symm.trans hkey'))
        | fresh _ hnone _ _ => exact absurd (hkey.symm.trans hnone) (Option.some_ne_none x)
      have hkey' : keyAt (s.withIndex b index o c) b' = some x := by
        rw [hkeys, Function.update_of_ne hbb]
        exact hkey
      have hmap : (s.withIndex b index o c).indexMap b' = s.indexMap b' :=
        Function.update_of_ne hbb ..
      rw [view_mem hcore' hb' hkey', view_mem hcore hb' hkey, hmap]
      rfl
    · have hnot' : ∀ b' < 2 ^ k, keyAt (s.withIndex b index o c) b' ≠ some x := by
        intro b' hb'
        rw [hkeys]
        by_cases hbb : b' = b
        · subst hbb
          rw [Function.update_self]
          exact fun h => hx (Option.some.inj h).symm
        · rw [Function.update_of_ne hbb]
          exact hnot b' hb'
      rw [view_notMem hcore' hgenesis' hnot', view_notMem hcore hgenesis' hnot]

end

end WithIndex

end Core

end Floresta.FlatChainStore
