import Floresta.Wallet.History

/-!
# Confirmations — the merkle proofs a wallet serves

A transaction is stored again by every look that touches the wallet and by every call of the mempool
that does, so what the wallet knows of it is its last sighting.  `Served` is a run with the log of
its sightings, newest first; a transaction that was last sighted in a block has the proof, the height
and the position of its place in that block.
-/

namespace Floresta.Wallet

open Fallible AddressCacheInner Ledger

variable (B : Bitcoin) (M : Miniscript)

/-! ## Sightings -/

/-- A transaction that the wallet stored: at an item of a block, or from the mempool. -/
inductive Sighting
  | confirmed (item : Item)
  | unconfirmed (tx : Transaction)

namespace Sighting

def tx : Sighting → Transaction
  | confirmed item => item.tx
  | unconfirmed tx => tx

def record : Sighting → Option CachedTransaction
  | confirmed item =>
    (MerkleProof.fromBlock B item.place.block item.place.position).toOption.map fun proof =>
      .record B item.tx item.place.height proof item.place.position
  | unconfirmed tx => some (.record B tx 0 MerkleProof.default 0)

end Sighting

def lastSighting (log : List Sighting) (txid : Txid) : Option Sighting :=
  log.find? fun sighting => B.computeTxid sighting.tx = txid

/-- The items that touch the wallet when they are looked at. -/
def touched (s : AddressCacheInner) : List Item → List Item
  | [] => []
  | item :: items =>
    let rest := (look B M s item).toOption.elim [] fun s' => touched s' items
    if (item.touches B s).isSome then item :: rest else rest

/-- Every state of a wallet that processes blocks of the chain, in any order, and sees unconfirmed
transactions; and its log. -/
inductive Served (chain : List Block) : AddressCacheInner → List Sighting → Prop
  | new {s : AddressCacheInner} (h : AddressCacheInner.new B M KvDatabase.empty = .ok s) :
      Served chain s []
  | address {s : AddressCacheInner} {log : List Sighting} (h : Served chain s log)
      (script : Script) : Served chain (s.cacheAddress B script) log
  | descriptor {s : AddressCacheInner} {log : List Sighting} (h : Served chain s log)
      (descriptor : String) : Served chain (pushDescriptor B M descriptor s).2 log
  | block {s s' : AddressCacheInner} {log : List Sighting} (h : Served chain s log)
      {block : Block} {height : Nat} {found : List (Transaction × TxOut)}
      (hblock : chain[height]? = some block)
      (hprocess : s.blockProcess B M block height = .ok (s', found)) :
      Served chain s' ((touched B M s (blockItems block height)).reverse.map .confirmed ++ log)
  | mempool {s s' : AddressCacheInner} {log : List Sighting} (h : Served chain s log)
      {tx : Transaction} {coins : List TxOut}
      (hcache : s.cacheMempoolTransaction B M tx = .ok (s', coins)) :
      Served chain s' (if coins = [] then log else .unconfirmed tx :: log)

/-! ## What is stored -/

section Stored

variable {B M} {s s' : AddressCacheInner}

theorem lastSighting_cons (sighting : Sighting) (log : List Sighting) (txid : Txid) :
    lastSighting B (sighting :: log) txid =
      if B.computeTxid sighting.tx = txid then some sighting else lastSighting B log txid := by
  unfold lastSighting
  rw [List.find?_cons]
  by_cases h : B.computeTxid sighting.tx = txid
  · simp [h]
  · simp [h]

theorem saveTx_transactions {tx : Transaction} {value index : Nat} {isSpend : Bool} {hash : Hash256}
    {record : CachedTransaction} (h : saveTx B s tx value index isSpend hash record = .ok s') :
    s'.database.transactions = s.database.transactions := by
  rcases saveTx_ok h with ⟨-, rfl⟩ | ⟨a, address, utxoIndex, -, rfl, -⟩
  · rfl
  · exact (noteTransaction_writes_index ..).transactions

theorem cacheTransaction_transactions {tx : Transaction} {height value : Nat} {proof : MerkleProof}
    {position index : Nat} {isSpend : Bool} {hash : Hash256}
    (h : s.cacheTransaction B M tx height value proof position index isSpend hash = .ok s') :
    s'.database.transactions = s.database.transactions.insert (B.computeTxid tx)
      (.record B tx height proof position) := by
  rcases bind_eq_ok.mp h with ⟨s1, hfollow, h⟩
  rcases bind_eq_ok.mp h with ⟨s2, hderive, hsave⟩
  have hsave' : saveTx B s2 tx value index isSpend hash (.record B tx height proof position) =
      .ok s' := hsave
  have hgrows : Grows s1 s2 := (Grows.stable s1).maybeDeriveAddresses (Grows.refl s1) hderive
  rw [saveTx_transactions hsave', hgrows.transactions]
  unfold followAddress at hfollow
  split at hfollow
  · cases hfollow
    rfl
  · rcases bind_eq_ok.mp hfollow with ⟨out, -, hfollow⟩
    cases hfollow
    rfl

theorem look_transactions {item : Item} (htouches : (item.touches B s).isSome)
    (hlook : look B M s item = .ok s') :
    ∃ record, (Sighting.confirmed item).record B = some record ∧
      s'.database.transactions = s.database.transactions.insert (B.computeTxid item.tx) record := by
  have hrecord : ∀ proof, MerkleProof.fromBlock B item.place.block item.place.position = .ok proof →
      (Sighting.confirmed item).record B =
        some (.record B item.tx item.place.height proof item.place.position) := by
    intro proof hproof
    rw [Sighting.record, hproof]
    rfl
  obtain ⟨hash, htouches⟩ := Option.isSome_iff_exists.mp htouches
  cases item with
  | input place tx txin vin =>
    rcases look_input_ok htouches hlook with ⟨a, value, proof, -, hproof, hok⟩
    exact ⟨_, hrecord proof hproof, cacheTransaction_transactions hok⟩
  | output place tx out vout =>
    rcases look_output_ok (Item.touches_output.mp htouches).1 hlook with ⟨proof, hproof, hok⟩
    exact ⟨_, hrecord proof hproof, cacheTransaction_transactions hok⟩

theorem cacheMempoolTransaction_transactions {tx : Transaction} {coins : List TxOut}
    (h : s.cacheMempoolTransaction B M tx = .ok (s', coins)) (txid : Txid) :
    s'.database.transactions.lookup txid =
      if coins ≠ [] ∧ txid = B.computeTxid tx then some (.record B tx 0 MerkleProof.default 0)
      else s.database.transactions.lookup txid := by
  -- the state after some coins have been cached
  let Cached (found : List (Nat × TxOut)) (t : AddressCacheInner) : Prop :=
    t.database.transactions.lookup txid =
      if found ≠ [] ∧ txid = B.computeTxid tx then some (.record B tx 0 MerkleProof.default 0)
      else s.database.transactions.lookup txid
  have hone : ∀ found c t t', Cached found t → cacheUnconfirmed B M tx t c = .ok t' →
      Cached (found ++ [c]) t' := by
    intro found c t t' ht hok
    rcases bind_eq_ok.mp hok with ⟨a, -, hok⟩
    simp only [Cached, cacheTransaction_transactions hok, lookup_insert_eq] at ht ⊢
    by_cases heq : txid = B.computeTxid tx
    · simp [heq]
    · simpa [heq] using ht
  have hnil : Cached [] s := by simp [Cached]
  rcases cacheMempoolTransaction_inv hone hnil h with ⟨found, rfl, hs', -⟩
  simpa [Cached] using hs'

end Stored

/-! ## The log tells what is stored -/

/-- Every transaction is stored as it was last sighted, and as it was before if it was not. -/
def Logged (before : HashMap Txid CachedTransaction) (log : List Sighting)
    (s : AddressCacheInner) : Prop :=
  ∀ txid, s.database.transactions.lookup txid =
    (lastSighting B log txid).elim (before.lookup txid) (Sighting.record B)

namespace Logged

variable {B M} {s s' : AddressCacheInner} {before : HashMap Txid CachedTransaction}
  {log : List Sighting}

theorem congr (h : Logged B before log s)
    (htxs : s'.database.transactions = s.database.transactions) : Logged B before log s' := by
  unfold Logged
  rw [htxs]
  exact h

theorem stable : Stable B (Logged B before log) where
  cacheAddress s script h := h.congr ((Grows.refl s).cacheAddress script).transactions
  derivedIndex _ _ h := h.congr rfl
  saveStats _ _ h := h.congr rfl

theorem sight (h : Logged B before log s) (sighting : Sighting)
    (hstore : ∀ txid, s'.database.transactions.lookup txid =
      if txid = B.computeTxid sighting.tx then sighting.record B
      else s.database.transactions.lookup txid) : Logged B before (sighting :: log) s' := by
  intro txid
  rw [hstore, lastSighting_cons]
  by_cases heq : txid = B.computeTxid sighting.tx
  · rw [if_pos heq, if_pos heq.symm]
    rfl
  · rw [if_neg heq, if_neg (Ne.symm heq)]
    exact h txid

theorem scan (h : Logged B before log s) {items : List Item} (hscan : scan B M s items = .ok s') :
    Logged B before ((touched B M s items).reverse.map .confirmed ++ log) s' := by
  induction items generalizing s log with
  | nil =>
    cases hscan
    exact h
  | cons item items ih =>
    rw [Wallet.scan, List.foldlM_cons, bind_eq_ok] at hscan
    rcases hscan with ⟨t, hlook, hscan⟩
    rw [touched, hlook]
    dsimp only [Except.toOption, Option.elim_some]
    split
    next htouches =>
      have ht : Logged B before (.confirmed item :: log) t := by
        rcases look_transactions htouches hlook with ⟨record, hrecord, htxs⟩
        refine h.sight (.confirmed item) fun txid => ?_
        rw [htxs, lookup_insert_eq, hrecord]
        rfl
      simpa using ih ht hscan
    next htouches =>
      have hnone : item.touches B s = none := by simpa using htouches
      cases (look_of_untouched (M := M) hnone).symm.trans hlook
      exact ih h hscan

theorem mempool (h : Logged B before log s) {tx : Transaction} {coins : List TxOut}
    (hcache : s.cacheMempoolTransaction B M tx = .ok (s', coins)) :
    Logged B before (if coins = [] then log else .unconfirmed tx :: log) s' := by
  have hstore := cacheMempoolTransaction_transactions hcache
  by_cases hcoins : coins = []
  · intro txid
    rw [if_pos hcoins, hstore, if_neg (by simp [hcoins])]
    exact h txid
  · rw [if_neg hcoins]
    refine h.sight (.unconfirmed tx) fun txid => ?_
    rw [hstore]
    by_cases heq : txid = B.computeTxid tx
    · simp [hcoins, heq, Sighting.tx, Sighting.record]
    · simp [heq, Sighting.tx]

end Logged

section Runs

variable {B M} {chain : List Block} {s s' : AddressCacheInner} {log : List Sighting}

theorem Served.logged (h : Served B M chain s log) : Logged B ∅ log s := by
  induction h with
  | new h =>
    cases new_empty.symm.trans h
    intro txid
    rfl
  | address h script ih => exact Logged.stable.cacheAddress _ script ih
  | descriptor h descriptor ih =>
    exact Logged.stable.pushDescriptor (fun s d hs => hs.congr rfl) descriptor _ ih
  | block h hblock hprocess ih => exact ih.scan (scan_of_blockProcess hprocess)
  | mempool h hcache ih => exact ih.mempool hcache

theorem mem_of_mem_touched {items : List Item} {item : Item} (h : item ∈ touched B M s items) :
    item ∈ items := by
  induction items generalizing s with
  | nil => cases h
  | cons head items ih =>
    have hrest : item ∈ (look B M s head).toOption.elim [] (fun s' => touched B M s' items) →
        item ∈ items := by
      intro hmem
      cases hlook : look B M s head with
      | error e =>
        rw [hlook] at hmem
        cases hmem
      | ok t =>
        rw [hlook] at hmem
        exact ih hmem
    unfold touched at h
    dsimp only at h
    split at h
    · rcases List.mem_cons.mp h with rfl | hmem
      · exact List.mem_cons_self
      · exact List.mem_cons_of_mem _ (hrest hmem)
    · exact List.mem_cons_of_mem _ (hrest h)

theorem Served.mem_chain (h : Served B M chain s log) {item : Item}
    (hmem : .confirmed item ∈ log) :
    ∃ height block, chain[height]? = some block ∧ item ∈ blockItems block height := by
  induction h with
  | new h => cases hmem
  | address h script ih => exact ih hmem
  | descriptor h descriptor ih => exact ih hmem
  | @block s s' log h block height found hblock hprocess ih =>
    rcases List.mem_append.mp hmem with hmem | hmem
    · rcases List.mem_map.mp hmem with ⟨item', hitem', heq⟩
      cases heq
      exact ⟨height, block, hblock, mem_of_mem_touched (List.mem_reverse.mp hitem')⟩
    · exact ih hmem
  | @mempool s s' log h tx coins hcache ih =>
    split at hmem
    · exact ih hmem
    · rcases List.mem_cons.mp hmem with heq | hmem
      · cases heq
      · exact ih hmem

theorem reads_of_record {txid : Txid} {tx : Transaction} {height position : Nat}
    {proof : MerkleProof}
    (h : s.database.transactions.lookup txid = some (.record B tx height proof position)) :
    s.getMerkleProof txid = some proof ∧ s.getHeight txid = some height ∧
      s.getPosition txid = some position := by
  have hget : s.getTransaction txid = some (.record B tx height proof position) := h
  simp [getMerkleProof, getHeight, getPosition, hget, CachedTransaction.record]

theorem place_unique (honce : ((chain.flatMap Block.txdata).map B.computeTxid).Nodup)
    {height height' position position' : Nat} {block block' : Block} {tx tx' : Transaction}
    (hblock : chain[height]? = some block) (htx : block.txdata[position]? = some tx)
    (hblock' : chain[height']? = some block') (htx' : block'.txdata[position']? = some tx')
    (htxid : B.computeTxid tx = B.computeTxid tx') : height = height' ∧ position = position' := by
  rw [List.map_flatMap, List.nodup_flatMap] at honce
  rcases honce with ⟨hinside, hacross⟩
  have hmem : B.computeTxid tx ∈ block.txdata.map B.computeTxid :=
    List.mem_map_of_mem (List.mem_of_getElem? htx)
  have hmem' : B.computeTxid tx ∈ block'.txdata.map B.computeTxid :=
    htxid ▸ List.mem_map_of_mem (List.mem_of_getElem? htx')
  rcases List.getElem?_eq_some_iff.mp hblock with ⟨hlt, rfl⟩
  rcases List.getElem?_eq_some_iff.mp hblock' with ⟨hlt', rfl⟩
  have hheight : height = height' := by
    rcases Nat.lt_trichotomy height height' with hless | heq | hless
    · exact absurd hmem' ((List.pairwise_iff_getElem.mp hacross) _ _ hlt hlt' hless hmem)
    · exact heq
    · exact absurd hmem ((List.pairwise_iff_getElem.mp hacross) _ _ hlt' hlt hless hmem')
  subst hheight
  refine ⟨rfl, ?_⟩
  have hnodup := hinside _ (List.getElem_mem hlt)
  refine (List.getElem?_inj ?_ hnodup).mp ?_
  · simpa using (List.getElem?_eq_some_iff.mp htx).1
  · simp [htx, htx', htxid]

end Runs

/-! ## The proofs that are served -/

section Main

variable {B M} {chain : List Block} {s : AddressCacheInner} {log : List Sighting}

/-- Over a chain whose transactions appear once and whose headers commit to them, and for every
transaction whose last sighting is not an unconfirmed one: the wallet has a merkle proof exactly if
the transaction touched it in a processed block, and then the proof verifies against the header of
the block, names the transaction, and height and position are those of the transaction. -/
theorem wallet_serves_proofs
    (hroot : ∀ block ∈ chain, ∃ mutated, Consensus.calculateRoot B
      (block.txdata.map B.computeTxid) = some (block.header.merkleRoot, mutated))
    (honce : ((chain.flatMap Block.txdata).map B.computeTxid).Nodup)
    (h : Served B M chain s log) (txid : Txid)
    (hlast : ∀ tx, lastSighting B log txid ≠ some (.unconfirmed tx)) :
    ((∃ proof, s.getMerkleProof txid = some proof) ↔
      ∃ height block item, chain[height]? = some block ∧ item ∈ blockItems block height ∧
        .confirmed item ∈ log ∧ B.computeTxid item.tx = txid) ∧
    (∀ height block position tx, chain[height]? = some block →
      block.txdata[position]? = some tx → B.computeTxid tx = txid →
      ∀ proof, s.getMerkleProof txid = some proof →
        proof.verify B block.header.merkleRoot = true ∧ proof.target = txid ∧
          s.getHeight txid = some height ∧ s.getPosition txid = some position) := by
  have hlookup := h.logged txid
  cases hsight : lastSighting B log txid with
  | none =>
    -- never sighted, so never stored
    rw [hsight, Option.elim_none, Finmap.lookup_empty] at hlookup
    have hnone : s.getMerkleProof txid = none := by
      simp [getMerkleProof, AddressCacheInner.getTransaction, KvDatabase.getTransaction, hlookup]
    refine ⟨?_, ?_⟩
    · rw [hnone]
      constructor
      · rintro ⟨proof, hproof⟩
        cases hproof
      · rintro ⟨height, block, item, -, -, hmem, htxid⟩
        have := List.find?_eq_none.mp hsight _ hmem
        exact absurd (decide_eq_true (show B.computeTxid (Sighting.confirmed item).tx = txid from
          htxid)) this
    · intro height block position tx _ _ _ proof hproof
      rw [hnone] at hproof
      cases hproof
  | some sighting =>
  cases sighting with
  | unconfirmed tx => exact absurd hsight (hlast tx)
  | confirmed item =>
    have hmem : .confirmed item ∈ log := List.mem_of_find?_eq_some hsight
    have hfound := List.find?_some hsight
    have htxid : B.computeTxid item.tx = txid := of_decide_eq_true hfound
    rcases h.mem_chain hmem with ⟨height, block, hblock, hitem⟩
    rcases blockItems_placed hitem with ⟨hplaced, hheight, hplace⟩
    have hposition := hplaced.block
    rw [hplace] at hposition
    rcases MerkleProof.fromBlock_verify (B := B) hposition with
      ⟨proof, hproof, htarget, -, hverify⟩
    -- the record of the item
    have hrecord : s.database.transactions.lookup txid =
        some (.record B item.tx height proof item.place.position) := by
      rw [hlookup, hsight, Option.elim_some, Sighting.record, hplace, hproof, hheight]
      rfl
    rcases reads_of_record hrecord with ⟨hserved, hreadHeight, hreadPosition⟩
    refine ⟨⟨fun _ => ⟨height, block, item, hblock, hitem, hmem, htxid⟩, fun _ => ⟨proof, hserved⟩⟩,
      ?_⟩
    intro height' block' position tx hblock' htx htxid' proof' hproof'
    cases hserved.symm.trans hproof'
    rcases place_unique honce hblock' htx hblock hposition (htxid'.trans htxid.symm) with
      ⟨rfl, rfl⟩
    cases hblock.symm.trans hblock'
    rcases hroot block (List.mem_of_getElem? hblock) with ⟨mutated, hroot⟩
    exact ⟨hverify _ _ hroot, htarget.trans htxid, hreadHeight, hreadPosition⟩

end Main

namespace Sample

def committed (txs : List Transaction) : Block where
  header := ⟨1, 0, ((Consensus.calculateRoot Bitcoin.sample
    (txs.map Bitcoin.sample.computeTxid)).getD (0, false)).1, 0, 0, 0⟩
  txdata := txs

def payment : Transaction := spending (coinbase 0 [output 50 1]) [output 50 7]

def ledger : List Block :=
  [committed [coinbase 0 [output 50 1]],
    committed [coinbase 1 [output 50 1], payment,
      spending (coinbase 1 [output 50 1]) [output 50 1]]]

end Sample

open Sample Bitcoin in
theorem wallet_serves_proofs_sample : ∃ s log proof,
    Served sample miniscript ledger s log ∧
    s.getMerkleProof (sample.computeTxid payment) = some proof ∧
    (∀ block, ledger[1]? = some block →
      proof.verify sample block.header.merkleRoot = true) ∧
    s.getHeight (sample.computeTxid payment) = some 1 ∧
    s.getPosition (sample.computeTxid payment) = some 1 := by
  have hroot : ∀ block ∈ ledger, ∃ mutated, Consensus.calculateRoot sample
      (block.txdata.map sample.computeTxid) =
        some (block.header.merkleRoot, mutated) := by
    have hall : ∀ block ∈ ledger, Consensus.calculateRoot sample
        (block.txdata.map sample.computeTxid) = some (block.header.merkleRoot, false) := by
      decide +kernel
    exact fun block hblock => ⟨false, hall block hblock⟩
  have honce : ((ledger.flatMap Block.txdata).map sample.computeTxid).Nodup := by
    decide +kernel
  -- seen unconfirmed, then in its block
  have hrun : ((single.cacheMempoolTransaction sample miniscript payment).toOption.any
      fun r => (ledger[1]?).any fun block =>
        (r.1.blockProcess sample miniscript block 1).toOption.any fun r' =>
          (r'.1.getMerkleProof (sample.computeTxid payment)).isSome &&
            ((lastSighting sample
              ((touched sample miniscript r.1 (blockItems block 1)).reverse.map .confirmed ++
                if r.2 = [] then [] else [.unconfirmed payment])
              (sample.computeTxid payment)).elim true fun
                | .confirmed _ => true
                | .unconfirmed _ => false)) = true := by
    decide +kernel
  rcases exists_of_any hrun with ⟨⟨s1, coins⟩, hs1, hrun⟩
  rcases (Option.any_eq_true _ _).mp hrun with ⟨block, hblock, hrun⟩
  rcases exists_of_any hrun with ⟨⟨s2, found⟩, hs2, hrun⟩
  rcases Bool.and_eq_true_iff.mp hrun with ⟨hsome, hsight⟩
  obtain ⟨proof, hproof⟩ := Option.isSome_iff_exists.mp hsome
  have hnew : Served sample miniscript ledger emptyCache [] := .new new_empty
  have hserved := ((hnew.address [7]).mempool hs1).block hblock hs2
  have htx : block.txdata[1]? = some payment := by
    cases hblock
    rfl
  have hreads := (wallet_serves_proofs hroot honce hserved (sample.computeTxid payment)
    (by
      intro tx heq
      rw [heq] at hsight
      cases hsight)).2 1 block 1 payment hblock htx rfl proof hproof
  refine ⟨s2, _, proof, hserved, hproof, ?_, hreads.2.2.1, hreads.2.2.2⟩
  intro block' hblock'
  cases hblock.symm.trans hblock'
  exact hreads.1

open Sample Bitcoin in
/-- A transaction of a processed block that does not concern the wallet has no proof. -/
theorem wallet_serves_no_proof : ∃ s log block tx, Served sample miniscript ledger s log ∧
    (∃ s₀ found, Served sample miniscript ledger s₀ [] ∧
      s₀.blockProcess sample miniscript block 1 = .ok (s, found)) ∧
    ledger[1]? = some block ∧ block.txdata[2]? = some tx ∧
    Consensus.calculateRoot sample (block.txdata.map sample.computeTxid) =
      some (block.header.merkleRoot, false) ∧
    ((ledger.flatMap Block.txdata).map sample.computeTxid).Nodup ∧
    s.getMerkleProof (sample.computeTxid tx) = none := by
  have hrun : ((ledger[1]?).any fun block => (block.txdata[2]?).any fun tx =>
      (Consensus.calculateRoot sample (block.txdata.map sample.computeTxid) ==
        some (block.header.merkleRoot, false)) &&
        (single.blockProcess sample miniscript block 1).toOption.any fun r =>
          (r.1.getMerkleProof (sample.computeTxid tx)).isNone) = true := by
    decide +kernel
  rcases (Option.any_eq_true _ _).mp hrun with ⟨block, hblock, hrun⟩
  rcases (Option.any_eq_true _ _).mp hrun with ⟨tx, htx, hrun⟩
  rcases Bool.and_eq_true_iff.mp hrun with ⟨hroot, hrun⟩
  rcases exists_of_any hrun with ⟨⟨s, found⟩, hs, hnone⟩
  have hnew : Served sample miniscript ledger emptyCache [] := .new new_empty
  have hserved := (hnew.address [7]).block hblock hs
  exact ⟨s, _, block, tx, hserved, ⟨single, found, hnew.address [7], hs⟩, hblock, htx,
    beq_iff_eq.mp hroot, by decide +kernel, Option.isNone_iff_eq_none.mp hnone⟩

end Floresta.Wallet
