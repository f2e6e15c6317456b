import Floresta.Wallet.Keys

/-!
# Statuses — what changes the history of an address

The history of an address is read off two things: the transactions the address lists, and where each
of them was stored last.  A block or an unconfirmed transaction changes neither for an address that
it does not touch and whose transactions stay where they are (`Quiet`).  An address that a block
touches need not be among the payments that processing the block returns.
-/

namespace Floresta.Wallet

open Fallible AddressCacheInner Ledger

variable (B : Bitcoin) (M : Miniscript) {record : CachedTransaction}
variable {a : CachedAddress} {txid : Txid} {tx : Transaction} {index value : Nat} {isSpend : Bool}

/-! ## Histories -/

def listed (s : AddressCacheInner) (hash : Hash256) : List Txid :=
  ((s.addressMap.lookup hash).map CachedAddress.transactions).getD []

def history (s : AddressCacheInner) (hash : Hash256) : List CachedTransaction :=
  (s.getAddressHistory hash).getD []

/-- What the order of a history and a status look at. -/
structure Standing where
  height : Nat
  position : Nat
  hash : Txid
  deriving DecidableEq

def CachedTransaction.standing (ct : CachedTransaction) : Standing :=
  ⟨ct.height, ct.position, ct.hash⟩

def standingOf (s : AddressCacheInner) (txid : Txid) : Option Standing :=
  (s.getTransaction txid).map CachedTransaction.standing

def Standing.Le (a b : Standing) : Prop :=
  a.height < b.height ∨ a.height = b.height ∧
    (a.position < b.position ∨ a.position = b.position ∧ a.hash.toNat ≤ b.hash.toNat)

instance : DecidableRel Standing.Le := fun _ _ => inferInstanceAs (Decidable (_ ∨ _))

/-- The history as it is arranged for an address. -/
def arrange (standings : List Standing) : List Standing :=
  (standings.filter fun x => x.height ≠ 0).insertionSort Standing.Le ++
    standings.filter fun x => x.height = 0

section Histories

variable {s s' : AddressCacheInner} {hash : Hash256}

theorem map_standing_history (s : AddressCacheInner) (hash : Hash256) :
    (history s hash).map CachedTransaction.standing =
      arrange ((listed s hash).filterMap (standingOf s)) := by
  unfold history listed getAddressHistory
  cases s.addressMap.lookup hash with
  | none => rfl
  | some a =>
    have hmap : a.transactions.filterMap (standingOf s) =
        (a.transactions.filterMap s.getTransaction).map CachedTransaction.standing := by
      rw [List.map_filterMap]
      rfl
    simp only [Option.map_some, Option.getD_some, hmap, arrange, List.map_append]
    rw [List.map_insertionSort CachedTransaction.Le Standing.Le _ _ fun a _ b _ => Iff.rfl,
      List.filter_map, List.filter_map]
    rfl

theorem standings_congr (hlisted : listed s' hash = listed s hash)
    (hstanding : ∀ txid ∈ listed s hash, standingOf s' txid = standingOf s txid) :
    (history s' hash).map CachedTransaction.standing =
      (history s hash).map CachedTransaction.standing := by
  rw [map_standing_history, map_standing_history, hlisted,
    List.filterMap_congr hstanding]

end Histories

/-! ## Caching a transaction on an address -/

/-- The indexed outputs belong to tracked addresses, and the records know their txids. -/
structure Tidy (s : AddressCacheInner) : Prop extends Keyed s where
  index : ∀ o hash, s.utxoIndex.lookup o = some hash → hash ∈ s.addressMap
  records : ∀ txid ct, s.database.transactions.lookup txid = some ct → ct.hash = txid

/-- What the last step of `cache_transaction` writes: the address lists the transaction, and only
this address may gain an output. -/
structure Caches (s s' : AddressCacheInner) (hash : Hash256) (txid : Txid) : Prop where
  listed : listed s' hash = if txid ∈ listed s hash then listed s hash else listed s hash ++ [txid]
  other : ∀ h, h ≠ hash → s'.addressMap.lookup h = s.addressMap.lookup h
  scriptSet : s'.scriptSet = s.scriptSet
  index : ∀ o h, s'.utxoIndex.lookup o = some h → s.utxoIndex.lookup o = some h ∨ h = hash
  transactions : s'.database.transactions = s.database.transactions

section Caches

variable {B M} {s s' : AddressCacheInner} {hash : Hash256}

theorem listed_of_lookup (h : s.addressMap.lookup hash = some a) :
    listed s hash = a.transactions := by
  rw [listed, h]
  rfl

theorem mem_of_mem_listed (h : txid ∈ listed s hash) : hash ∈ s.addressMap := by
  unfold listed at h
  cases ha : s.addressMap.lookup hash with
  | none =>
    rw [ha] at h
    exact absurd h List.not_mem_nil
  | some a => exact Finmap.mem_of_lookup_eq_some ha

theorem noteTransaction_caches {address : CachedAddress} (ha : s.addressMap.lookup hash = some a)
    (hsame : address.transactions = a.transactions) (index : HashMap OutPoint Hash256)
    (hindex : ∀ o h, index.lookup o = some h → s.utxoIndex.lookup o = some h ∨ h = hash)
    (txid : Txid) :
    Caches s ({ s with utxoIndex := index }.noteTransaction hash address txid) hash txid := by
  have hw := noteTransaction_writes { s with utxoIndex := index } hash address txid
  refine ⟨?_, ?_, hw.scriptSet, ?_, hw.transactions⟩
  · have hlookup := hw.addressMap hash
    rw [if_pos rfl] at hlookup
    rw [listed_of_lookup hlookup, listed_of_lookup ha, CachedAddress.noted, ← hsame]
    split <;> rfl
  · intro h hne
    rw [hw.addressMap, if_neg hne]
  · rw [hw.utxoIndex]
    exact hindex

theorem Caches.mem_listed (h : Caches s s' hash txid) : txid ∈ Wallet.listed s' hash := by
  rw [h.listed]
  split
  · assumption
  · exact List.mem_concat_self

theorem saveTx_caches (hmem : hash ∈ s.addressMap)
    (hok : saveTx B s tx value index isSpend hash record = .ok s') :
    Caches s s' hash record.hash := by
  rcases saveTx_ok hok with ⟨hnone, -⟩ | ⟨a, address, utxoIndex, ha, rfl, -, hsame, hindex⟩
  · exact absurd hmem (Finmap.lookup_eq_none.mp hnone)
  · exact noteTransaction_caches ha hsame utxoIndex hindex _

namespace Tidy

theorem stable : Stable B Tidy where
  cacheAddress s script h := by
    refine ⟨Keyed.stable.cacheAddress s script h.toKeyed, ?_, ?_⟩
    · intro o hash hlookup
      refine mem_cacheAddress_of_mem (h.index o hash ?_) script
      unfold AddressCacheInner.cacheAddress at hlookup
      dsimp only at hlookup
      split at hlookup <;> exact hlookup
    · unfold AddressCacheInner.cacheAddress
      dsimp only
      split <;> exact h.records
  derivedIndex s index h := ⟨Keyed.stable (B := B) |>.derivedIndex s index h.toKeyed, h.index, h.records⟩
  saveStats s stats h := ⟨Keyed.stable (B := B) |>.saveStats s stats h.toKeyed, h.index, h.records⟩

theorem stored (h : Tidy s)
    (hrecord : record.hash = B.computeTxid record.tx) : Tidy (stored B s record) := by
  refine ⟨h.toKeyed.stored record, h.index, ?_⟩
  intro txid ct hct
  change (s.database.transactions.insert _ record).lookup txid = some ct at hct
  rw [lookup_insert_eq] at hct
  split at hct
  next heq =>
    cases hct
    rw [heq, hrecord]
  · exact h.records txid ct hct

theorem saveTx (h : Tidy s) (hmem : hash ∈ s.addressMap)
    (hok : Wallet.saveTx B s tx value index isSpend hash record = .ok s') : Tidy s' := by
  rcases h.toKeyed.saveTx hmem hok with ⟨hkeyed, hkept⟩
  have hcaches := saveTx_caches hmem hok
  refine ⟨hkeyed, ?_, ?_⟩
  · intro o h' hlookup
    rw [hkept.addressMap]
    rcases hcaches.index o h' hlookup with hold | rfl
    · exact h.index o h' hold
    · exact hmem
  · rw [hcaches.transactions]
    exact h.records

end Tidy

end Caches

/-! ## Addresses that nothing happens to -/

/-- The address lists the same transactions, stored where they were, and has no new output. -/
structure Quiet (hash : Hash256) (s s' : AddressCacheInner) : Prop where
  listed : listed s' hash = listed s hash
  standing : ∀ txid ∈ Wallet.listed s hash, standingOf s' txid = standingOf s txid
  index : ∀ o, s'.utxoIndex.lookup o = some hash → s.utxoIndex.lookup o = some hash

/-- The address lists a transaction that is stored, so its history is not empty. -/
def Heard (s : AddressCacheInner) (hash : Hash256) : Prop :=
  ∃ txid ∈ listed s hash, txid ∈ s.database.transactions

section Quiet

variable {B M} {s s' s'' : AddressCacheInner} {hash : Hash256}

theorem listed_cacheAddress (s : AddressCacheInner) (script : Script) (hash : Hash256) :
    listed (s.cacheAddress B script) hash = listed s hash := by
  unfold AddressCacheInner.cacheAddress
  dsimp only
  split
  · rfl
  next hnew =>
    unfold listed
    dsimp only
    rw [lookup_insert_eq]
    split
    next heq =>
      rw [heq, Finmap.lookup_eq_none.mpr hnew]
      rfl
    · rfl

theorem standingOf_congr (h : s'.database.transactions = s.database.transactions) (txid : Txid) :
    standingOf s' txid = standingOf s txid := by
  unfold standingOf AddressCacheInner.getTransaction KvDatabase.getTransaction
  rw [h]

theorem cacheAddress_frame (s : AddressCacheInner) (script : Script) :
    (s.cacheAddress B script).utxoIndex = s.utxoIndex ∧
      (s.cacheAddress B script).database.transactions = s.database.transactions := by
  unfold AddressCacheInner.cacheAddress
  dsimp only
  split <;> exact ⟨rfl, rfl⟩

namespace Quiet

theorem refl (s : AddressCacheInner) : Quiet hash s s := ⟨rfl, fun _ _ => rfl, fun _ h => h⟩

theorem trans (h : Quiet hash s s') (h' : Quiet hash s' s'') : Quiet hash s s'' where
  listed := h'.listed.trans h.listed
  standing txid htxid := (h'.standing txid (h.listed ▸ htxid)).trans (h.standing txid htxid)
  index o ho := h.index o (h'.index o ho)

theorem stable (s : AddressCacheInner) : Stable B (Quiet hash s) where
  cacheAddress t script h := by
    rcases cacheAddress_frame (B := B) t script with ⟨hindex, htransactions⟩
    refine h.trans ⟨listed_cacheAddress t script hash, ?_, ?_⟩
    · exact fun txid _ => standingOf_congr htransactions txid
    · rw [hindex]
      exact fun _ ho => ho
  derivedIndex _ _ h := ⟨h.listed, h.standing, h.index⟩
  saveStats _ _ h := ⟨h.listed, h.standing, h.index⟩

theorem standings (h : Quiet hash s s') : (history s' hash).map CachedTransaction.standing =
    (history s hash).map CachedTransaction.standing :=
  standings_congr h.listed h.standing

/-- A transaction is stored that the address does not list, or where it stands already. -/
theorem stored (s : AddressCacheInner)
    (hstay : B.computeTxid record.tx ∈ Wallet.listed s hash →
      standingOf s (B.computeTxid record.tx) = some record.standing) :
    Quiet hash s (stored B s record) := by
  refine ⟨rfl, ?_, fun _ ho => ho⟩
  intro txid htxid
  change ((s.database.transactions.insert (B.computeTxid record.tx) record).lookup txid).map _ = _
  rw [lookup_insert_eq]
  split
  next heq =>
    subst heq
    exact (hstay htxid).symm
  · rfl

theorem of_caches {other : Hash256} (h : Caches s s' other txid)
    (hne : other ≠ hash) : Quiet hash s s' := by
  refine ⟨?_, fun txid _ => standingOf_congr h.transactions txid, ?_⟩
  · unfold Wallet.listed
    rw [h.other hash hne.symm]
  · intro o ho
    rcases h.index o hash ho with hold | heq
    · exact hold
    · exact absurd heq.symm hne

end Quiet

namespace Heard

theorem stable (hash : Hash256) : Stable B fun s => Heard s hash where
  cacheAddress s script h := by
    unfold Heard at h ⊢
    rwa [listed_cacheAddress, (cacheAddress_frame s script).2]
  derivedIndex _ _ h := h
  saveStats _ _ h := h

theorem stored (h : Heard s hash) (record : CachedTransaction) : Heard (stored B s record) hash := by
  rcases h with ⟨txid, hlisted, hmem⟩
  exact ⟨txid, hlisted, Finmap.mem_insert.mpr (.inr hmem)⟩

theorem of_caches {other : Hash256} (hcaches : Caches s s' other txid)
    (h : Heard s hash) : Heard s' hash := by
  rcases h with ⟨txid', hlisted, hmem⟩
  refine ⟨txid', ?_, hcaches.transactions ▸ hmem⟩
  by_cases heq : hash = other
  · subst heq
    rw [hcaches.listed]
    split
    · exact hlisted
    · exact List.mem_append_left _ hlisted
  · unfold listed
    rwa [hcaches.other hash heq]

theorem history_ne_nil (h : Heard s hash) : history s hash ≠ [] := by
  rcases h with ⟨txid, hlisted, hmem⟩
  rcases Finmap.mem_iff.mp hmem with ⟨ct, hct⟩
  have hstanding : ct.standing ∈ (listed s hash).filterMap (standingOf s) := by
    refine List.mem_filterMap.mpr ⟨txid, hlisted, ?_⟩
    change (s.database.transactions.lookup txid).map _ = _
    rw [hct]
    rfl
  have harrange : ct.standing ∈ arrange ((listed s hash).filterMap (standingOf s)) := by
    unfold arrange
    rw [List.mem_append, List.mem_insertionSort]
    by_cases hzero : ct.standing.height = 0
    · exact .inr (List.mem_filter.mpr ⟨hstanding, by simpa using hzero⟩)
    · exact .inl (List.mem_filter.mpr ⟨hstanding, by simpa using hzero⟩)
  rw [← map_standing_history] at harrange
  intro hnil
  rw [hnil] at harrange
  exact absurd harrange List.not_mem_nil

end Heard

/-- Caching a transaction on a tracked address: the address is heard of, the others whose
transactions stay where they are stay quiet. -/
theorem Tidy.cacheTransaction (h : Tidy s) {height : Nat}
    {proof : MerkleProof} {position : Nat} {touched : Hash256}
    (hmem : touched ∈ s.addressMap)
    (hok : s.cacheTransaction B M tx height value proof position index isSpend touched = .ok s') :
    Tidy s' ∧ s.scriptSet ⊆ s'.scriptSet ∧ Heard s' touched ∧
      (∀ hash, Heard s hash → Heard s' hash) ∧
      ∀ hash, touched ≠ hash → (B.computeTxid tx ∈ listed s hash →
        standingOf s (B.computeTxid tx) = some ⟨height, position, B.computeTxid tx⟩) →
        Quiet hash s s' := by
  rcases cacheTransaction_ok hmem hok with ⟨t, hderive, hgrows, hsave⟩
  have hstored : Tidy (Wallet.stored B s (.record B tx height proof position)) := h.stored rfl
  have ht := Tidy.stable.maybeDeriveAddresses hstored hderive
  have hmem' := hgrows.mem hmem
  have hcaches := saveTx_caches hmem' hsave
  refine ⟨ht.saveTx hmem' hsave, ?_, ?_, ?_, ?_⟩
  · rw [hcaches.scriptSet]
    exact hgrows.scriptSet
  · refine ⟨B.computeTxid tx, ?_, ?_⟩
    · exact hcaches.mem_listed
    · rw [hcaches.transactions, hgrows.transactions]
      exact Finmap.mem_insert.mpr (.inl rfl)
  · intro hash hheard
    exact Heard.of_caches hcaches
      ((Heard.stable hash).maybeDeriveAddresses (hheard.stored _) hderive)
  · intro hash hne hstay
    have hquiet := (Quiet.stable s).maybeDeriveAddresses (Quiet.stored s hstay) hderive
    exact hquiet.trans (Quiet.of_caches hcaches hne)

end Quiet

/-! ## Blocks -/

/-- No transaction of the block spends an output of the address, and those that the address lists
are stored at their places already. -/
def Untouched (s : AddressCacheInner) (block : Block) (height : Nat) (hash : Hash256) : Prop :=
  ∀ position tx, block.txdata[position]? = some tx →
    (∀ input ∈ tx.input, s.utxoIndex.lookup input.previousOutput ≠ some hash) ∧
    (B.computeTxid tx ∈ listed s hash →
      standingOf s (B.computeTxid tx) = some ⟨height, position, B.computeTxid tx⟩)

def hashesOf (found : List (Transaction × TxOut)) : List Hash256 :=
  found.map fun p => getSpkHash B p.2.scriptPubkey

/-- What processing some items of a block has come to. -/
structure Processed (block : Block) (height : Nat) (s : AddressCacheInner) (done : List Item)
    (st : AddressCacheInner × List (Transaction × TxOut)) : Prop where
  tidy : Tidy st.1
  scriptSet : s.scriptSet ⊆ st.1.scriptSet
  heard : ∀ hash ∈ hashesOf B st.2, Heard st.1 hash
  found : ∀ item ∈ done, ∀ o out, item.pays B = some (o, out) →
    getSpkHash B out.scriptPubkey ∈ s.scriptSet → getSpkHash B out.scriptPubkey ∈ hashesOf B st.2
  quiet : ∀ hash, Untouched B s block height hash → hash ∉ hashesOf B st.2 → Quiet hash s st.1

section Blocks

variable {B M} {s s' : AddressCacheInner} {block : Block} {height : Nat}

theorem hashesOf_append (l r : List (Transaction × TxOut)) :
    hashesOf B (l ++ r) = hashesOf B l ++ hashesOf B r :=
  List.map_append

theorem Item.pays_finds {item : Item} {o : OutPoint} {out : TxOut}
    (h : item.pays B = some (o, out)) (hmem : getSpkHash B out.scriptPubkey ∈ s.scriptSet) :
    getSpkHash B out.scriptPubkey ∈ hashesOf B (item.finds B s) := by
  cases item with
  | input place tx txin vin => cases h
  | output place tx out' vout =>
    cases h
    rw [Item.finds, if_pos hmem]
    exact List.mem_singleton.mpr rfl

theorem Processed.gather {done : List Item} {item : Item}
    {st st' : AddressCacheInner × List (Transaction × TxOut)}
    (h : Processed B block height s done st) (hitem : item ∈ blockItems block height)
    (hok : gather B M st item = .ok st') : Processed B block height s (done ++ [item]) st' := by
  unfold Wallet.gather at hok
  rcases bind_eq_ok.mp hok with ⟨t, hlook, hok⟩
  cases hok
  rcases blockItems_placed hitem with ⟨hplaced, hheight, hblock⟩
  have hfound : ∀ item' ∈ done ++ [item], ∀ o out, item'.pays B = some (o, out) →
      getSpkHash B out.scriptPubkey ∈ s.scriptSet →
      getSpkHash B out.scriptPubkey ∈ hashesOf B (st.2 ++ item.finds B st.1) := by
    rw [hashesOf_append]
    refine forall_mem_snoc (fun item' hitem' o out hpays hmem => ?_) fun o out hpays hmem => ?_
    · exact List.mem_append_left _ (h.found item' hitem' o out hpays hmem)
    · exact List.mem_append_right _ (Item.pays_finds hpays (h.scriptSet hmem))
  cases htouches : item.touches B st.1 with
  | none =>
    cases (look_of_untouched (M := M) htouches).symm.trans hlook
    have hfinds := Item.finds_of_untouched htouches
    rw [hfinds, List.append_nil] at hfound ⊢
    exact ⟨h.tidy, h.scriptSet, h.heard, hfound, h.quiet⟩
  | some touched =>
    rcases look_touched h.tidy.tracked h.tidy.own htouches hlook with
      ⟨value, proof, index, isSpend, hmem, -, hcache⟩
    rcases h.tidy.cacheTransaction hmem hcache with ⟨htidy, hsets, hheard, hheard', hquiet⟩
    refine ⟨htidy, h.scriptSet.trans hsets, ?_, hfound, ?_⟩
    · intro hash hhash
      rw [hashesOf_append, List.mem_append] at hhash
      rcases hhash with hhash | hhash
      · exact hheard' hash (h.heard hash hhash)
      · rcases List.mem_map.mp hhash with ⟨p, hp, rfl⟩
        rw [Item.finds_touches htouches p hp]
        exact hheard
    · intro hash huntouched hhash
      rw [hashesOf_append, List.mem_append, not_or] at hhash
      have hquiet0 := h.quiet hash huntouched hhash.1
      have hplace := huntouched item.place.position item.tx (hblock ▸ hplaced.block)
      refine hquiet0.trans (hquiet hash ?_ ?_)
      · -- an input touches the owner of an output that was there before the block
        rintro rfl
        cases item with
        | input place tx txin vin =>
          exact hplace.1 txin (List.mem_of_getElem? hplaced.2) (hquiet0.index _ htouches)
        | output place tx out vout =>
          rcases Item.touches_output.mp htouches with ⟨hset, rfl⟩
          exact hhash.2 (Item.pays_finds rfl hset)
      · intro hlisted
        rw [hquiet0.listed] at hlisted
        rw [hquiet0.standing _ hlisted, hheight]
        exact hplace.2 hlisted

/-- A block: the payments that are returned are all the payments to addresses that were tracked, and
an address without one stays quiet unless the block spends from it or moves its transactions. -/
theorem Tidy.blockProcess (h : Tidy s) {found : List (Transaction × TxOut)}
    (hprocess : s.blockProcess B M block height = .ok (s', found)) :
    Tidy s' ∧ (∀ hash ∈ hashesOf B found, Heard s' hash) ∧
      (∀ hash ∈ s.scriptSet, (∃ tx ∈ block.txdata, ∃ out ∈ tx.output,
        getSpkHash B out.scriptPubkey = hash) → hash ∈ hashesOf B found) ∧
      ∀ hash, Untouched B s block height hash → hash ∉ hashesOf B found → Quiet hash s s' := by
  rw [blockProcess_gather] at hprocess
  have hnil : Processed B block height s [] (s, []) :=
    ⟨h, Finset.Subset.refl _, fun _ hmem => absurd hmem List.not_mem_nil,
      fun _ hmem => absurd hmem List.not_mem_nil, fun _ _ _ => Quiet.refl s⟩
  have hall := foldlM_inv (I := Processed B block height s) (blockItems block height)
    (fun done item rest st st' hsplit hst hok => hst.gather (by simp [hsplit]) hok) hnil hprocess
  refine ⟨hall.tidy, hall.heard, ?_, hall.quiet⟩
  rintro hash hset ⟨tx, htx, out, hout, rfl⟩
  rcases List.mem_iff_getElem?.mp htx with ⟨position, hposition⟩
  rcases List.mem_iff_getElem?.mp hout with ⟨vout, hvout⟩
  refine hall.found (.output ⟨block, height, position⟩ tx out vout) ?_ _ out rfl hset
  refine List.mem_flatMap.mpr ⟨(tx, position), List.mem_zipIdx_iff_getElem?.mpr hposition, ?_⟩
  refine List.mem_append_right _ (List.mem_map.mpr ⟨(out, vout), ?_, rfl⟩)
  exact List.mem_zipIdx_iff_getElem?.mpr hvout

end Blocks

/-! ## Unconfirmed transactions -/

/-- What caching an unconfirmed transaction on the addresses of some outputs has come to. -/
structure CachedOn (tx : Transaction) (s : AddressCacheInner) (coins : List (Nat × TxOut))
    (t : AddressCacheInner) : Prop where
  tidy : Tidy t
  scriptSet : s.scriptSet ⊆ t.scriptSet
  heard : ∀ coin ∈ coins, Heard t (getSpkHash B coin.2.scriptPubkey)
  quiet : ∀ hash, (B.computeTxid tx ∈ listed s hash →
      standingOf s (B.computeTxid tx) = some ⟨0, 0, B.computeTxid tx⟩) →
    (∀ coin ∈ coins, getSpkHash B coin.2.scriptPubkey ≠ hash) → Quiet hash s t

section Unconfirmed

variable {B M} {s s' : AddressCacheInner} {tx : Transaction}

theorem CachedOn.cacheUnconfirmed {coins : List (Nat × TxOut)} {coin : Nat × TxOut}
    {t t' : AddressCacheInner} (h : CachedOn B tx s coins t)
    (hok : cacheUnconfirmed B M tx t coin = .ok t') :
    CachedOn B tx s (coins ++ [coin]) t' := by
  simp only [AddressCacheInner.cacheUnconfirmed, bind_eq_ok, okOr_eq_ok] at hok
  rcases hok with ⟨a, ha, hok⟩
  rw [h.tidy.own _ a ha] at hok
  rcases h.tidy.cacheTransaction (Finmap.mem_of_lookup_eq_some ha) hok with
    ⟨htidy, hsets, hheard, hheard', hquiet⟩
  refine ⟨htidy, h.scriptSet.trans hsets, ?_, ?_⟩
  · exact forall_mem_snoc (fun coin' hcoin' => hheard' _ (h.heard coin' hcoin')) hheard
  · intro hash hstay hne
    have hquiet0 := h.quiet hash hstay fun coin' hcoin' =>
      hne coin' (List.mem_append_left _ hcoin')
    refine hquiet0.trans (hquiet hash (hne coin ?_) ?_)
    · exact List.mem_concat_self
    · intro hlisted
      rw [hquiet0.listed] at hlisted
      rw [hquiet0.standing _ hlisted]
      exact hstay hlisted

/-- An unconfirmed transaction: the outputs that are returned include every payment to a tracked
address, and an address without one stays quiet unless its record moves. -/
theorem Tidy.cacheMempoolTransaction (h : Tidy s) {coins : List TxOut}
    (hcache : s.cacheMempoolTransaction B M tx = .ok (s', coins)) :
    Tidy s' ∧ (∀ out ∈ coins, Heard s' (getSpkHash B out.scriptPubkey)) ∧
      (∀ out ∈ tx.output, getSpkHash B out.scriptPubkey ∈ s.scriptSet → out ∈ coins) ∧
      ∀ hash, (B.computeTxid tx ∈ listed s hash →
        standingOf s (B.computeTxid tx) = some ⟨0, 0, B.computeTxid tx⟩) →
        (∀ out ∈ coins, getSpkHash B out.scriptPubkey ≠ hash) → Quiet hash s s' := by
  have hnil : CachedOn B tx s [] s :=
    ⟨h, Finset.Subset.refl _, fun _ hmem => absurd hmem List.not_mem_nil, fun _ _ _ => Quiet.refl s⟩
  rcases cacheMempoolTransaction_inv (I := CachedOn B tx s)
    (fun found c t t' ht hok => ht.cacheUnconfirmed hok) hnil hcache with
    ⟨found, rfl, hcached, hfound⟩
  refine ⟨hcached.tidy, ?_, ?_, ?_⟩
  · intro out hout
    rcases List.mem_map.mp hout with ⟨coin, hcoin, rfl⟩
    exact hcached.heard coin hcoin
  · intro out hout hset
    rcases hfound out hout with hmem | ⟨found', t, ht, hnot⟩
    · exact hmem
    · exact absurd (ht.scriptSet hset) hnot
  · intro hash hstay hne
    exact hcached.quiet hash hstay fun coin hcoin => hne coin.2 (List.mem_map_of_mem hcoin)

theorem Ran.tidy {C : AddressCacheInner → Block → Nat → Prop} (h : Ran B M C s) : Tidy s := by
  induction h with
  | new h =>
    cases new_empty.symm.trans h
    refine ⟨⟨rfl, ?_, ?_, ?_, ?_⟩, ?_, ?_⟩
    all_goals simp [emptyCache, KvDatabase.empty, KvDatabase.saveStats, Finmap.notMem_empty]
  | address h script ih => exact Tidy.stable.cacheAddress _ script ih
  | descriptor h descriptor ih =>
    refine Tidy.stable.pushDescriptor ?_ descriptor _ ih
    intro s d hs
    exact ⟨{ hs with }, hs.index, hs.records⟩
  | block h hblock hprocess ih => exact (ih.blockProcess hprocess).1
  | mempool h hcache ih => exact (ih.cacheMempoolTransaction hcache).1

end Unconfirmed

end Floresta.Wallet
