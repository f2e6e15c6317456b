import Floresta.Wallet.Persistence

/-!
# Keys — the addresses by their script hashes

Which script hashes the wallet holds does not depend on what it knows about them: the cache, the
script set and the database have the same keys in every state, also where the database lags behind
with an address.  Caching a transaction on a tracked address keeps the keys.
-/

namespace Floresta.Wallet

open Fallible AddressCacheInner Ledger

variable (B : Bitcoin) (M : Miniscript)

/-- The script set, the addresses and the stored addresses have the same keys. -/
structure Keyed (s : AddressCacheInner) : Prop where
  stats : s.database.stats.isSome
  tracked : ∀ hash, hash ∈ s.scriptSet ↔ hash ∈ s.addressMap
  own : ∀ hash a, s.addressMap.lookup hash = some a → a.scriptHash = hash
  saved : ∀ hash, hash ∈ s.database.addresses ↔ hash ∈ s.addressMap
  savedOwn : ∀ hash a, s.database.addresses.lookup hash = some a → a.scriptHash = hash

/-- The second cache has the same keys, descriptors and indexes. -/
structure Kept (s s' : AddressCacheInner) : Prop where
  descriptors : s'.database.descriptors = s.database.descriptors
  stats : s'.database.stats = s.database.stats
  derivedIndex : s'.derivedIndex = s.derivedIndex
  addressMap : ∀ hash, hash ∈ s'.addressMap ↔ hash ∈ s.addressMap

section Keys

variable {B M} {s s' : AddressCacheInner}

theorem own_insert {m : HashMap Hash256 CachedAddress} {address : CachedAddress} {key : Hash256}
    (h : ∀ hash a, m.lookup hash = some a → a.scriptHash = hash) (hkey : address.scriptHash = key) :
    ∀ hash a, (m.insert key address).lookup hash = some a → a.scriptHash = hash := by
  intro hash a ha
  rw [lookup_insert_eq] at ha
  split at ha
  next heq =>
    cases ha
    exact hkey.trans heq.symm
  · exact h hash a ha

namespace Keyed

theorem stable : Stable B Keyed where
  cacheAddress s script h := by
    unfold AddressCacheInner.cacheAddress
    dsimp only
    split
    · exact h
    · refine ⟨h.stats, ?_, own_insert h.own rfl, ?_, own_insert h.savedOwn rfl⟩
      · intro hash
        rw [Finset.mem_insert, Finmap.mem_insert, h.tracked]
      · intro hash
        change hash ∈ s.database.addresses.insert _ _ ↔ _
        rw [Finmap.mem_insert, Finmap.mem_insert, h.saved]
        rfl
  derivedIndex _ _ h := { h with }
  saveStats _ _ h := { h with stats := rfl }

theorem stored (h : Keyed s) (record : CachedTransaction) : Keyed (stored B s record) :=
  { h with }

theorem noteTransaction (h : Keyed s) {hash : Hash256} {address : CachedAddress}
    (hmem : hash ∈ s.addressMap) (hown : address.scriptHash = hash)
    (index : HashMap OutPoint Hash256) (txid : Txid) :
    Keyed ({ s with utxoIndex := index }.noteTransaction hash address txid) ∧
      Kept s ({ s with utxoIndex := index }.noteTransaction hash address txid) := by
  have hkeys : ∀ (m : HashMap Hash256 CachedAddress) (a : CachedAddress), hash ∈ m →
      ∀ hash', hash' ∈ m.insert hash a ↔ hash' ∈ m := by
    intro m a hm hash'
    rw [Finmap.mem_insert, or_iff_right_iff_imp]
    rintro rfl
    exact hm
  unfold AddressCacheInner.noteTransaction
  split
  · refine ⟨⟨h.stats, ?_, own_insert h.own hown, ?_, h.savedOwn⟩, rfl, rfl, rfl,
      hkeys s.addressMap _ hmem⟩
    · exact fun hash' => (h.tracked hash').trans (hkeys _ _ hmem hash').symm
    · exact fun hash' => (h.saved hash').trans (hkeys _ _ hmem hash').symm
  · subst hown
    refine ⟨⟨h.stats, ?_, own_insert h.own rfl, ?_, own_insert h.savedOwn rfl⟩, rfl, rfl, rfl,
      hkeys s.addressMap _ hmem⟩
    · exact fun hash' => (h.tracked hash').trans (hkeys _ _ hmem hash').symm
    · intro hash'
      refine (hkeys _ _ ((h.saved _).mpr hmem) hash').trans ?_
      exact (h.saved hash').trans (hkeys _ _ hmem hash').symm

theorem saveTx (h : Keyed s) {tx : Transaction} {value index : Nat} {isSpend : Bool}
    {hash : Hash256} {record : CachedTransaction} (hmem : hash ∈ s.addressMap)
    (hok : saveTx B s tx value index isSpend hash record = .ok s') : Keyed s' ∧ Kept s s' := by
  rcases saveTx_ok hok with ⟨hnone, -⟩ | ⟨a, address, utxoIndex, ha, rfl, hown, -, -⟩
  · exact absurd hmem (Finmap.lookup_eq_none.mp hnone)
  · exact h.noteTransaction hmem (hown.trans (h.own hash a ha)) utxoIndex _

end Keyed

/-- The cache after some addresses have been inserted, by their keys. -/
structure LoadedKeys (db : KvDatabase) (done : List CachedAddress) (t : AddressCacheInner) :
    Prop where
  database : t.database = db
  derivedIndex : t.derivedIndex = ∅
  scriptSet : ∀ hash, hash ∈ t.scriptSet ↔ ∃ a ∈ done, a.scriptHash = hash
  addressMap : ∀ hash, hash ∈ t.addressMap ↔ ∃ a ∈ done, a.scriptHash = hash
  own : ∀ hash a, t.addressMap.lookup hash = some a → a.scriptHash = hash

theorem LoadedKeys.foldl {db : KvDatabase} {done : List CachedAddress} {t : AddressCacheInner}
    (h : LoadedKeys db done t) (rest : List CachedAddress) :
    LoadedKeys db (done ++ rest) (rest.foldl AddressCacheInner.insertLoaded t) := by
  induction rest generalizing done t with
  | nil => simpa using h
  | cons x rest ih =>
    have hmem : ∀ hash, (hash = x.scriptHash ∨ ∃ a ∈ done, a.scriptHash = hash) ↔
        ∃ a ∈ done ++ [x], a.scriptHash = hash := by
      intro hash
      simp only [List.mem_append, List.mem_singleton, or_and_right, exists_or, exists_eq_left]
      rw [or_comm, eq_comm]
    have hx : LoadedKeys db (done ++ [x]) (t.insertLoaded x) := by
      refine ⟨h.database, h.derivedIndex, ?_, ?_, own_insert h.own rfl⟩
      · intro hash
        rw [← hmem, ← h.scriptSet]
        exact Finset.mem_insert
      · intro hash
        rw [← hmem, ← h.addressMap]
        exact Finmap.mem_insert
    have := ih hx
    rwa [List.append_assoc] at this

theorem loadedKeys_load (db : KvDatabase) :
    LoadedKeys db db.load (db.load.foldl AddressCacheInner.insertLoaded (unloaded db)) := by
  have hnil : LoadedKeys db [] (unloaded db) := by
    refine ⟨rfl, rfl, ?_, ?_, ?_⟩
    all_goals simp [unloaded, Finmap.notMem_empty]
  exact hnil.foldl db.load

theorem Keyed.exists_mem_load (h : Keyed s) (hash : Hash256) :
    (∃ a ∈ s.database.load, a.scriptHash = hash) ↔ hash ∈ s.addressMap := by
  rw [← h.saved, Finmap.mem_iff]
  constructor
  · rintro ⟨a, ha, rfl⟩
    rcases mem_load.mp ha with ⟨hash, ha⟩
    rw [h.savedOwn hash a ha]
    exact ⟨a, ha⟩
  · rintro ⟨a, ha⟩
    exact ⟨a, mem_load.mpr ⟨hash, ha⟩, h.savedOwn hash a ha⟩

end Keys

end Floresta.Wallet
