import Floresta.Store.Operations

/-!
# Histories — the store as the map of its last saves

A history is the list of the headers that were saved, the last one first.  Whatever saves and
lookups a store has seen, it answers with the last header saved under a hash, its index leads every
hash to its own bucket or to an empty one, and its counter is the number of the hashes in the index
(`storeRun_refines`).
-/

namespace Floresta.FlatChainStore

open Prog

variable {B : Bitcoin} {genesis : BlockHash} {k : Nat} {s s' : FlatChainStore}

/-! ## The genesis header again -/

section SaveGenesis

variable {record : HashedDiskHeader}

theorem keyAt_setGenesis (b : Nat) : keyAt (s.setSlot ⟨false, 0⟩ record) b = keyAt s b := by
  by_cases hempty : s.indexMap b = ⟨false, 0⟩
  · have hnone : keyAt (s.setSlot ⟨false, 0⟩ record) b = none := by
      rw [keyAt_eq_none, setSlot_indexMap]
      exact hempty
    rw [hnone, keyAt_eq_none.mpr hempty]
  · unfold keyAt
    rw [setSlot_indexMap, slot_setSlot, if_neg hempty]

theorem StoreCore.setGenesis (hcore : StoreCore B genesis k s) (hhash : record.hash = genesis)
    (hblock : record.header.blockHash B = genesis) (hactive : record.header.isActive = true)
    (hheight : record.header.height = some 0) :
    StoreCore B genesis k (s.setSlot ⟨false, 0⟩ record) :=
  hcore.overwrite (hhash ▸ hcore.genesisHash) (hblock.trans hhash.symm) (fun _ => hhash)
    (fun _ => ⟨hactive, hheight, Nat.two_pow_pos 31⟩) nofun fun b _ => keyAt_setGenesis b

theorem view_setGenesis (hcore : StoreCore B genesis k s)
    (hcore' : StoreCore B genesis k (s.setSlot ⟨false, 0⟩ record)) :
    (s.setSlot ⟨false, 0⟩ record).view =
      Function.update s.view genesis (some record.header) := by
  funext hash
  rcases hash_cases s genesis k hash with rfl | ⟨b, hb, hkey⟩ | ⟨hgenesis, hnot⟩
  · rw [view_genesis hcore', Function.update_self, setSlot_headers, if_pos rfl]
  · have hne : hash ≠ genesis := by
      rintro rfl
      exact hcore.foreign b hb hkey
    have hindex : s.indexMap b ≠ ⟨false, 0⟩ := by
      intro heq
      rw [keyAt_eq_none.mpr heq] at hkey
      cases hkey
    rw [Function.update_of_ne hne, view_mem hcore' hb ((keyAt_setGenesis b).trans hkey),
      view_mem hcore hb hkey, setSlot_indexMap, slot_setSlot, if_neg hindex]
  · have hnot' : ∀ b < 2 ^ k, keyAt (s.setSlot ⟨false, 0⟩ record) b ≠ some hash := by
      intro b hb
      rw [keyAt_setGenesis]
      exact hnot b hb
    rw [Function.update_of_ne hgenesis, view_notMem hcore' hgenesis hnot',
      view_notMem hcore hgenesis hnot]

end SaveGenesis

theorem saveIndexed_genesis (hinv : StoreInv B genesis k s) {d : DiskBlockHeader}
    (hactive : d.isActive = true) (hheight : d.height = some 0) (hhash : d.blockHash B = genesis) :
    wp (saveIndexed B d (d.blockHash B) 0) (fun r s' => r = .ok () → StoreInv B genesis k s' ∧
      s'.view = Function.update s.view genesis (some d) ∧
      s'.metadata.blockIndexOccupancy = s.metadata.blockIndexOccupancy) s := by
  unfold saveIndexed
  rw [wp_bind]
  refine wp_mono (saveHeader_active hactive hheight hinv.core.genesisInside (Nat.two_pow_pos 31)) ?_
  rintro r s1 ⟨rfl, rfl⟩
  have hcached : StoreCore B genesis k { s with cache := s.cache.put (d.blockHash B) d } :=
    hinv.core.withCache _
  have hcore : StoreCore B genesis k (s.written ⟨false, 0⟩ ⟨d, d.blockHash B, 0, 0⟩) :=
    hcached.setGenesis hhash hhash hactive hheight
  have hview : (s.written ⟨false, 0⟩ ⟨d, d.blockHash B, 0, 0⟩).view =
      Function.update s.view genesis (some d) := by
    calc (s.written ⟨false, 0⟩ ⟨d, d.blockHash B, 0, 0⟩).view
        = Function.update (view { s with cache := s.cache.put (d.blockHash B) d }) genesis
            (some d) := view_setGenesis hcached hcore
      _ = Function.update s.view genesis (some d) := by
          rw [view_withCache]
  rw [andThen_ok, hhash]
  refine wp_mono (updateBlockIndex_genesis (hhash ▸ hcore)) ?_
  rintro r s' hsame hok
  have hs' := hsame hok
  subst hs'
  rw [hhash] at hcore hview
  refine ⟨⟨hcore, ?_⟩, hview, ?_⟩
  · have hput : (s.written ⟨false, 0⟩ ⟨d, genesis, 0, 0⟩).cache = s.cache.put genesis d :=
      setSlot_cache ..
    unfold Coherent
    rw [hview, hput]
    exact hinv.coherent.put genesis d
  · exact congrArg Metadata.blockIndexOccupancy (setSlot_metadata ..)

/-! ## Runs -/

/-- The header that was saved last under a hash. -/
def latest (B : Bitcoin) (history : List DiskBlockHeader) (hash : BlockHash) :
    Option DiskBlockHeader :=
  history.find? fun d => d.blockHash B = hash

theorem latest_cons (B : Bitcoin) (d : DiskBlockHeader) (history : List DiskBlockHeader) :
    latest B (d :: history) = Function.update (latest B history) (d.blockHash B) (some d) := by
  funext hash
  unfold latest
  by_cases hhash : hash = d.blockHash B
  · subst hhash
    rw [Function.update_self, List.find?_cons_of_pos (by simp)]
  · rw [Function.update_of_ne hhash, List.find?_cons_of_neg (by simpa using Ne.symm hhash)]

theorem latest_isSome (B : Bitcoin) (history : List DiskBlockHeader) (hash : BlockHash) :
    (latest B history hash).isSome ↔ hash ∈ history.map (·.blockHash B) := by
  simp [latest, List.mem_map]

/-- Best-chain headers are saved together with their index entry. -/
def save (B : Bitcoin) (d : DiskBlockHeader) : StoreM Unit :=
  if d.isActive then saveIndexed B d (d.blockHash B) (d.height.getD 0) else saveHeader B d

/-- A best-chain header is only written over a record that was not written yet, that has the same
hash, or whose hash was last saved as a fork header. -/
def SlotPermits (B : Bitcoin) (history : List DiskBlockHeader) (s : FlatChainStore)
    (d : DiskBlockHeader) : Prop :=
  d.isActive = true → ∀ h, d.height = some h → (s.headers h).hash = 0 ∨
    (s.headers h).hash = d.blockHash B ∨
    ∃ e, latest B history (s.headers h).hash = some e ∧ e.isActive = false

/-- Moreover the genesis header stays where it is, and no hash is the one of an unwritten record. -/
structure Permits (B : Bitcoin) (genesis : BlockHash) (history : List DiskBlockHeader)
    (s : FlatChainStore) (d : DiskBlockHeader) : Prop where
  slot : SlotPermits B history s d
  genesis : d.blockHash B = genesis → d.isActive = true ∧ d.height = some 0
  nonzero : d.blockHash B ≠ 0

/-- The stores that permitted saves and any lookups lead to, with the headers that were saved.  The
first one is the genesis header. -/
inductive StoreRun (B : Bitcoin)
    (permits : List DiskBlockHeader → FlatChainStore → DiskBlockHeader → Prop)
    (config : FlatChainStoreConfig) (first : DiskBlockHeader) :
    List DiskBlockHeader → FlatChainStore → Prop
  | genesis {s : FlatChainStore} :
      first.isActive = true → first.height = some 0 →
      save B first (createChainStore config) = (.ok (), s) →
      StoreRun B permits config first [first] s
  | save {history : List DiskBlockHeader} {s s' : FlatChainStore} (d : DiskBlockHeader) :
      StoreRun B permits config first history s → permits history s d →
      FlatChainStore.save B d s = (.ok (), s') → StoreRun B permits config first (d :: history) s'
  | lookup {history : List DiskBlockHeader} {s : FlatChainStore} (hash : BlockHash) :
      StoreRun B permits config first history s →
      StoreRun B permits config first history (getHeader hash s).2

/-- The hashes in the index: those that were saved, without the genesis hash. -/
def indexed (B : Bitcoin) (genesis : BlockHash) (history : List DiskBlockHeader) :
    Finset BlockHash :=
  (history.map (·.blockHash B)).toFinset.erase genesis

/-- The store is the map of the last saves. -/
structure Refines (B : Bitcoin) (genesis : BlockHash) (k : Nat) (history : List DiskBlockHeader)
    (s : FlatChainStore) : Prop where
  inv : StoreInv B genesis k s
  view : s.view = latest B history
  occupancy : s.metadata.blockIndexOccupancy = (indexed B genesis history).card

theorem indexed_cons_card {history : List DiskBlockHeader} {d : DiskBlockHeader}
    (hgenesis : d.blockHash B ≠ genesis) :
    (indexed B genesis (d :: history)).card = (indexed B genesis history).card +
      if (latest B history (d.blockHash B)).isSome then 0 else 1 := by
  have hinsert : indexed B genesis (d :: history) =
      insert (d.blockHash B) (indexed B genesis history) := by
    unfold indexed
    rw [List.map_cons, List.toFinset_cons, Finset.erase_insert_of_ne hgenesis]
  have hmem : d.blockHash B ∈ indexed B genesis history ↔
      (latest B history (d.blockHash B)).isSome := by
    rw [latest_isSome]
    unfold indexed
    rw [Finset.mem_erase, List.mem_toFinset]
    exact and_iff_right hgenesis
  rw [hinsert]
  by_cases hold : (latest B history (d.blockHash B)).isSome
  · rw [if_pos hold, Finset.insert_eq_of_mem (hmem.mpr hold), Nat.add_zero]
  · rw [if_neg hold, Finset.card_insert_of_notMem fun h => hold (hmem.mp h)]

namespace Refines

variable {history : List DiskBlockHeader} {d : DiskBlockHeader}

theorem cons (h : Refines B genesis k history s) (hgenesis : d.blockHash B ≠ genesis)
    (hsaved : Saved B genesis k s d s') : Refines B genesis k (d :: history) s' := by
  refine ⟨hsaved.inv, ?_, ?_⟩
  · rw [hsaved.view, latest_cons, h.view]
  · rw [hsaved.frame.occupancy, indexed_cons_card hgenesis, h.occupancy, h.view]

theorem unused (h : Refines B genesis k history s) (hpermits : SlotPermits B history s d)
    (hactive : d.isActive = true) {n : Nat} (hheight : d.height = some n) {x : BlockHash}
    {e : DiskBlockHeader} (hx : s.view x = some e) (he : e.isActive = true)
    (hn : e.height = some n) : x = d.blockHash B := by
  rcases view_active h.inv.core hx he with ⟨m, hm, -, -, hslot, -⟩
  have hnm : n = m := Option.some.inj (hn.symm.trans hm)
  subst hnm
  rcases hpermits hactive n hheight with hzero | hsame | ⟨f, hf, hinactive⟩
  · exact absurd (hslot.symm.trans hzero) (view_ne_zero h.inv.core hx)
  · exact hslot.symm.trans hsame
  · -- the record's own hash was last saved as a best-chain header
    rw [hslot, ← h.view, hx] at hf
    rw [Option.some.inj hf, hinactive] at he
    cases he

theorem genesis_active (hcore : StoreCore B genesis k s) :
    s.view genesis = some (s.headers 0).header ∧ (s.headers 0).header.isActive = true ∧
      (s.headers 0).header.height = some 0 := by
  have hwritten : (s.headers 0).hash ≠ 0 := by
    rw [hcore.genesisSlot]
    exact hcore.genesisHash
  rcases hcore.mainSlots 0 hwritten with ⟨hactive, hheight, -⟩
  exact ⟨view_genesis hcore, hactive, hheight⟩

theorem save (h : Refines B genesis k history s) (hpermits : Permits B genesis history s d)
    (hsave : FlatChainStore.save B d s = (.ok (), s')) : Refines B genesis k (d :: history) s' := by
  unfold FlatChainStore.save at hsave
  cases hactive : d.isActive with
  | false =>
    have hgenesis : d.blockHash B ≠ genesis := by
      intro heq
      rw [(hpermits.genesis heq).1] at hactive
      cases hactive
    rw [hactive, if_neg nofun] at hsave
    by_cases hroom : ForkRoom s
    · have hrun := saveHeader_fork h.inv hactive hgenesis hpermits.nonzero hroom
      unfold wp at hrun
      rw [hsave] at hrun
      exact h.cons hgenesis hrun.2.1
    · have hrun := saveHeader_fork_full h.inv hactive hgenesis hpermits.nonzero hroom
      unfold wp at hrun
      rw [hsave] at hrun
      rcases hrun with ⟨e, he, -⟩
      cases he
  | true =>
    rcases isActive_height hactive with ⟨n, hheight⟩
    rw [hactive, if_pos rfl, hheight, Option.getD_some] at hsave
    by_cases hgenesis : d.blockHash B = genesis
    · have hzero : n = 0 :=
        Option.some.inj (hheight.symm.trans (hpermits.genesis hgenesis).2)
      subst hzero
      have hrun := saveIndexed_genesis h.inv hactive hheight hgenesis
      unfold wp at hrun
      rw [hsave] at hrun
      rcases hrun rfl with ⟨hinv, hview, hoccupancy⟩
      refine ⟨hinv, ?_, ?_⟩
      · rw [hview, latest_cons, h.view, hgenesis]
      · have hindexed : indexed B genesis (d :: history) = indexed B genesis history := by
          unfold indexed
          rw [List.map_cons, List.toFinset_cons, hgenesis, Finset.erase_insert_eq_erase]
        rw [hoccupancy, hindexed, h.occupancy]
    · have hunused : ∀ x e, s.view x = some e → e.isActive = true → e.height = some n →
          x = d.blockHash B := fun _ _ => h.unused hpermits.slot hactive hheight
      have hpos : n ≠ 0 := by
        rintro rfl
        rcases genesis_active h.inv.core with ⟨hview, hact, hzero⟩
        exact hgenesis (hunused _ _ hview hact hzero).symm
      by_cases hroom : ActiveRoom s n
      · have hrun := saveIndexed_spec h.inv hactive hheight hpos hgenesis hpermits.nonzero
          hunused hroom
        unfold wp at hrun
        rw [hsave] at hrun
        exact h.cons hgenesis hrun.2.1
      · have hrun := saveIndexed_full h.inv hactive hheight hpos hgenesis hpermits.nonzero
          hunused hroom
        unfold wp at hrun
        rw [hsave] at hrun
        rcases hrun with ⟨e, he, -⟩
        cases he

theorem lookup (h : Refines B genesis k history s) (hash : BlockHash) :
    Refines B genesis k history (getHeader hash s).2 := by
  rcases getHeader_spec h.inv hash with ⟨-, hfiles, hinv⟩
  refine ⟨hinv, hfiles.view.trans h.view, ?_⟩
  have hmeta : (getHeader hash s).2.metadata = s.metadata := by rw [hfiles]
  rw [hmeta]
  exact h.occupancy

end Refines

section Runs

variable {config : FlatChainStoreConfig} {first : DiskBlockHeader}
  {history : List DiskBlockHeader}

theorem Refines.start (hsize : IndexRounds config)
    (hzero : first.blockHash B ≠ 0) (hactive : first.isActive = true)
    (hheight : first.height = some 0)
    (hsave : FlatChainStore.save B first (createChainStore config) = (.ok (), s)) :
    Refines B (first.blockHash B) (indexBits config) [first] s := by
  have hindexed : wp (saveIndexed B first (first.blockHash B) 0) (fun r s' => r = .ok () →
      StoreCore B (first.blockHash B) (indexBits config) s' ∧
        s' = genesisStore config first (first.blockHash B)) (createChainStore config) := by
    unfold saveIndexed
    rw [wp_bind]
    refine wp_mono (saveHeader_genesis hactive hheight) ?_
    rintro (e | u) s1 hfirst
    · exact fun h => nomatch h
    · rcases hfirst rfl with ⟨hinside, rfl⟩
      have hcore : StoreCore B (first.blockHash B) (indexBits config)
          (genesisStore config first (first.blockHash B)) :=
        genesisStore_core hsize hinside hzero hactive hheight rfl
      rw [andThen_ok]
      refine wp_mono (updateBlockIndex_genesis hcore) ?_
      rintro r s' hsame hok
      have hs' := hsame hok
      subst hs'
      exact ⟨hcore, rfl⟩
  unfold FlatChainStore.save at hsave
  rw [hactive, if_pos rfl, hheight, Option.getD_some] at hsave
  unfold wp at hindexed
  rw [hsave] at hindexed
  rcases hindexed rfl with ⟨hcore, rfl⟩
  rcases genesisStore_inv hcore with ⟨hinv, hview⟩
  refine ⟨hinv, ?_, ?_⟩
  · rw [hview, latest_cons]
    rfl
  · have hempty : indexed B (first.blockHash B) [first] = ∅ := by simp [indexed]
    rw [hempty]
    rfl

theorem StoreRun.refines (hsize : IndexRounds config) (hzero : first.blockHash B ≠ 0)
    (hrun : StoreRun B (Permits B (first.blockHash B)) config first history s) :
    Refines B (first.blockHash B) (indexBits config) history s := by
  induction hrun with
  | genesis hactive hheight hsave => exact Refines.start hsize hzero hactive hheight hsave
  | save d _ hpermits hsave ih => exact ih.save hpermits hsave
  | lookup hash _ ih => exact ih.lookup hash

theorem Refines.probes (h : Refines B genesis k history s) (hash : BlockHash) :
    ∃ ptr, (∃ header, s.hashMapFindPos hash = .ok (.occupied ptr header) ∧
        (s.slot (s.indexMap ptr)).hash = hash) ∨
      (s.hashMapFindPos hash = .ok (.empty ptr) ∧ (s.indexMap ptr).isEmpty = true) := by
  have hcore := h.inv.core
  rcases hash_cases s genesis k hash with rfl | ⟨b, hb, hkey⟩ | ⟨hgenesis, hnot⟩
  · rcases hashMapFindPos_genesis hcore with ⟨b, -, hnone, hfind⟩
    refine ⟨b, .inl ⟨_, hfind, ?_⟩⟩
    rw [slot_empty hnone]
    exact hcore.genesisSlot
  · exact ⟨b, .inl ⟨_, hashMapFindPos_mem hcore hb hkey, (keyAt_eq_some.mp hkey).2⟩⟩
  · rcases hashMapFindPos_notMem hcore hgenesis hnot with ⟨i, -, hnone, -, hfind⟩
    exact ⟨_, .inr ⟨hfind, isEmpty_iff.mpr (keyAt_eq_none.mp hnone)⟩⟩

/-- After any permitted saves and any lookups, every lookup gives the last header saved under its
hash, whatever the cache holds; every probe ends at the bucket of its hash or at an empty one; and
the counter of the index is the number of the hashes saved besides the genesis hash. -/
theorem storeRun_refines (hsize : IndexRounds config) (hzero : first.blockHash B ≠ 0)
    (hrun : StoreRun B (Permits B (first.blockHash B)) config first history s) :
    (∀ hash, (getHeader hash s).1 = .ok (latest B history hash)) ∧
    (∀ hash, ∃ ptr, (∃ header, s.hashMapFindPos hash = .ok (.occupied ptr header) ∧
        (s.slot (s.indexMap ptr)).hash = hash) ∨
      (s.hashMapFindPos hash = .ok (.empty ptr) ∧ (s.indexMap ptr).isEmpty = true)) ∧
    s.metadata.blockIndexOccupancy =
      ((history.map (·.blockHash B)).toFinset.erase (first.blockHash B)).card := by
  have h := hrun.refines hsize hzero
  refine ⟨fun hash => ?_, h.probes, h.occupancy⟩
  rw [(getHeader_spec h.inv hash).1, h.view]

end Runs

namespace Sample

open Bitcoin

def fourBuckets : FlatChainStoreConfig := ⟨some 4, some 4, some 1, some 4⟩

def genesisHeader : BlockHeader := ⟨1, 0, 0, 1000, 1, 0⟩

def above (nonce : UInt32) : BlockHeader :=
  ⟨1, sample.blockHash genesisHeader, 0, 1600, 1, nonce⟩

def first : DiskBlockHeader := .fullyValid genesisHeader 0

/-- Its hash is looked for in the bucket of the genesis hash first. -/
def second : DiskBlockHeader := .headersOnly (above 10) 1

def fork : DiskBlockHeader := .inFork (above 11) 1

def saveAll (headers : List DiskBlockHeader) : FlatChainStore :=
  headers.foldl (fun s d => (save sample d s).2) (createChainStore fourBuckets)

def lookedUp : FlatChainStore :=
  (getHeader (fork.blockHash sample) (saveAll [first, fork])).2

theorem save_eq {d : DiskBlockHeader} {s : FlatChainStore}
    (h : (save sample d s).1 = .ok ()) :
    save sample d s = (.ok (), (save sample d s).2) := by
  rw [← h]

end Sample

open Sample Bitcoin in
/-- After a header on a fork, one of the best chain is saved. -/
theorem storeRun_refines_second :
    ∃ s, s = (save sample second lookedUp).2 ∧
      (getHeader (fork.blockHash sample) s).1 = .ok (some fork) ∧
      (getHeader (second.blockHash sample) s).1 = .ok (some second) ∧
      s.metadata.blockIndexOccupancy = 2 := by
  have hfirst : StoreRun sample (Permits sample (first.blockHash sample))
      fourBuckets first [first] (saveAll [first]) :=
    .genesis rfl rfl (save_eq (by decide +kernel))
  have hfork : Permits sample (first.blockHash sample) [first] (saveAll [first]) fork :=
    ⟨fun h => (nomatch h), fun heq => absurd heq (by decide +kernel), by decide +kernel⟩
  have hlooked : StoreRun sample (Permits sample (first.blockHash sample))
      fourBuckets first [fork, first] lookedUp :=
    (hfirst.save fork hfork (save_eq (by decide +kernel))).lookup _
  have hsecond : Permits sample (first.blockHash sample) [fork, first] lookedUp second := by
    refine ⟨fun _ h hh => ?_, fun heq => absurd heq (by decide +kernel), by decide +kernel⟩
    cases hh
    exact .inl (by decide +kernel)
  rcases storeRun_refines (indexRounds_of_lt (by decide) (by decide)) (by decide +kernel)
    (hlooked.save second hsecond (save_eq (by decide +kernel))) with ⟨hlookup, -, hoccupancy⟩
  refine ⟨_, rfl, (hlookup _).trans ?_, (hlookup _).trans ?_, hoccupancy.trans ?_⟩
  · decide +kernel
  · decide +kernel
  · decide +kernel

open Sample Bitcoin in
/-- If the genesis header is saved as a fork header, its hash takes a bucket.  Saving it as a
best-chain header again empties the bucket, and a header behind it is not found any more. -/
theorem storeRun_loses_header :
    ∃ history s, StoreRun sample (SlotPermits sample) fourBuckets first history s ∧
      latest sample history (second.blockHash sample) = some second ∧
      (getHeader (second.blockHash sample) s).1 = .ok none := by
  have h1 : StoreRun sample (SlotPermits sample) fourBuckets first [first]
      (saveAll [first]) := .genesis rfl rfl (save_eq (by decide +kernel))
  have h2 : StoreRun sample (SlotPermits sample) fourBuckets first
      [.inFork genesisHeader 0, first] (saveAll [first, .inFork genesisHeader 0]) :=
    h1.save _ (fun h => nomatch h) (save_eq (by decide +kernel))
  have h3 : StoreRun sample (SlotPermits sample) fourBuckets first
      [second, .inFork genesisHeader 0, first]
      (saveAll [first, .inFork genesisHeader 0, second]) := by
    refine h2.save _ (fun _ h hh => ?_) (save_eq (by decide +kernel))
    cases hh
    exact .inl (by decide +kernel)
  have h4 : StoreRun sample (SlotPermits sample) fourBuckets first
      [first, second, .inFork genesisHeader 0, first]
      (saveAll [first, .inFork genesisHeader 0, second, first]) := by
    refine h3.save _ (fun _ h hh => ?_) (save_eq (by decide +kernel))
    cases hh
    exact .inr (.inl (by decide +kernel))
  exact ⟨_, _, h4, by decide +kernel, by decide +kernel⟩

end Floresta.FlatChainStore
