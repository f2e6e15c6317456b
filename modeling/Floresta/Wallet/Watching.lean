import Floresta.Wallet.Books

/-!
# Watching — every look keeps the books

What one look at an input or an output does to the books, and what an unconfirmed transaction does
to them: nothing but listing the transaction.  Addresses that a payment derives are tracked from the
next item on.
-/

namespace Floresta.Wallet

open Fallible AddressCacheInner Ledger

variable {B : Bitcoin} {M : Miniscript} {U : List Transaction} {items : List Item} {n : Nat}
  {since : Hash256 → Nat} {s s' : AddressCacheInner} {o : OutPoint} {hash : Hash256} {item : Item}
  {a : CachedAddress}
variable {out : TxOut} {txid : Txid} {tx : Transaction}

/-- What is not tracked yet is tracked from `n` on, if ever. -/
def restamp (s : AddressCacheInner) (since : Hash256 → Nat) (n : Nat) (h : Hash256) : Nat :=
  if h ∈ s.scriptSet then since h else n

/-- An item that may come next after `items`. -/
structure Next (B : Bitcoin) (U : List Transaction) (items : List Item) (item : Item) : Prop where
  placed : item.Placed
  height : 0 < item.place.height
  mem : item.tx ∈ U
  /-- an output is new, and the unspent outputs fit a `u64` -/
  pays : ∀ o out, item.pays B = some (o, out) → coin B U o = some out ∧
    (∀ out', (o, out') ∉ paid B items) ∧ o ∉ spent items ∧
      total (unspent B (items ++ [item])) < 2 ^ 64

namespace Books

theorem mem_paid (h : Books B U items n since s)
    (ha : s.addressMap.lookup hash = some a) (ho : o ∈ a.utxos) :
    (∃ out, (o, out) ∈ paid B items) ∧ o ∉ spent items := by
  rcases ((h.exact hash a ha o).mp ho) with ⟨⟨out, hpaid, -⟩, hspent⟩
  refine ⟨⟨out, ?_⟩, hspent⟩
  exact (List.Sublist.filterMap _ (List.drop_sublist _ _)).mem hpaid

theorem lookup_eq_none (h : Books B U items n since s)
    (ho : ∀ out, (o, out) ∉ paid B items) : s.utxoIndex.lookup o = none := by
  cases hlookup : s.utxoIndex.lookup o with
  | none => rfl
  | some hash =>
    rcases (h.consistent.index o hash).mp hlookup with ⟨a, ha, hmem⟩
    rcases (h.mem_paid ha hmem).1 with ⟨out, hout⟩
    exact absurd hout (ho out)

theorem since_le (h : Books B U items items.length since s) (hash : Hash256) :
    since hash ≤ items.length := h.bound hash

/-! ## Tracking more addresses -/

theorem stable (hn : items.length ≤ n) : Stable B (Books B U items n since) where
  cacheAddress s script h := by
    refine ⟨h.consistent.cacheAddress script, h.bound, ?_, h.coins, ?_⟩
    · intro hash hhash
      refine h.untracked hash fun hmem => hhash ?_
      exact ((Grows.refl s).cacheAddress script).scriptSet hmem
    · intro hash a ha o
      rcases lookup_cacheAddress ha with ha | ⟨hnew, rfl⟩
      · exact h.exact hash a ha o
      · -- the new address is tracked from `n` on, when all the items have been looked at
        have huntracked := h.untracked _ fun hmem => hnew ((h.consistent.tracked _).mp hmem)
        rw [huntracked, List.drop_eq_nil_of_le hn]
        simp [CachedAddress.new, paid]
  derivedIndex _ _ h :=
    { h with consistent := Consistent.stable.derivedIndex _ _ h.consistent }
  saveStats _ _ h :=
    { h with consistent := Consistent.stable.saveStats _ _ h.consistent }

theorem stored (h : Books B U items n since s) {record : CachedTransaction} (htx : record.tx ∈ U) :
    Books B U items n since (stored B s record) :=
  { h with consistent := h.consistent.saveTransaction htx }

theorem restamp (h : Books B U items n since s) :
    Books B U items (n + 1) (restamp s since (n + 1)) s := by
  refine ⟨h.consistent, ?_, ?_, h.coins, ?_⟩
  · intro hash
    unfold Wallet.restamp
    split
    · exact Nat.le_succ_of_le (h.bound hash)
    · exact Nat.le_refl _
  · intro hash hhash
    exact if_neg hhash
  · intro hash a ha o
    have hmem : hash ∈ s.scriptSet :=
      (h.consistent.tracked hash).mpr (Finmap.mem_of_lookup_eq_some ha)
    rw [Wallet.restamp, if_pos hmem]
    exact h.exact hash a ha o

/-! ## Rewriting one address -/

theorem coins_concat (h : Books B U items n since s)
    (hitem : ∀ o out, item.pays B = some (o, out) → coin B U o = some out)
    (hmem : (o, out) ∈ paid B (items ++ [item])) : coin B U o = some out := by
  rcases mem_paid_concat.mp hmem with hmem | hmem
  · exact h.coins o out hmem
  · exact hitem o out hmem

theorem skip (h : Books B U items items.length since s)
    (hcoin : ∀ o out, item.pays B = some (o, out) → coin B U o = some out)
    (hspends : ∀ o, item.spends = some o → s.utxoIndex.lookup o = none)
    (hpays : ∀ o out, item.pays B = some (o, out) → getSpkHash B out.scriptPubkey ∉ s.scriptSet) :
    Books B U (items ++ [item]) (items.length + 1)
      (Wallet.restamp s since (items.length + 1)) s := by
  have hr := h.restamp
  refine ⟨hr.consistent, hr.bound, hr.untracked, fun o out => hr.coins_concat hcoin, ?_⟩
  intro hash a ha o
  rw [hr.exact hash a ha o, mem_spent_concat, not_or]
  simp only [mem_paid_drop_concat]
  constructor
  · rintro ⟨⟨out, hpaid, hout⟩, hspent⟩
    refine ⟨⟨out, .inl hpaid, hout⟩, hspent, ?_⟩
    intro ho
    have hmem := (hr.exact hash a ha o).mpr ⟨⟨out, hpaid, hout⟩, hspent⟩
    have howner := (h.consistent.index o hash).mpr ⟨a, ha, hmem⟩
    rw [hspends o ho] at howner
    cases howner
  · rintro ⟨⟨out, hpaid | ⟨-, hpaid⟩, hout⟩, hspent, -⟩
    · exact ⟨⟨out, hpaid, hout⟩, hspent⟩
    · have hmem : hash ∈ s.scriptSet :=
        (h.consistent.tracked hash).mpr (Finmap.mem_of_lookup_eq_some ha)
      exact absurd (hout ▸ hmem) (hpays o out hpaid)

theorem owner_unique (h : Books B U items n since s) {hash hash' : Hash256} {a a' : CachedAddress}
    (ha : s.addressMap.lookup hash = some a) (ho : o ∈ a.utxos)
    (ha' : s.addressMap.lookup hash' = some a') (ho' : o ∈ a'.utxos) : hash = hash' := by
  have h1 := (h.consistent.index o hash).mpr ⟨a, ha, ho⟩
  have h2 := (h.consistent.index o hash').mpr ⟨a', ha', ho'⟩
  exact Option.some.inj (h1.symm.trans h2)

theorem noted (h : Books B U items n since s) (ha : s.addressMap.lookup hash = some a)
    (hw : Writes s s' hash (a.noted txid) s.utxoIndex) : Books B U items n since s' := by
  refine ⟨h.consistent.noted ha hw, h.bound, ?_, h.coins, ?_⟩
  · rw [hw.scriptSet]
    exact h.untracked
  · intro hash' b hb o
    rw [hw.addressMap] at hb
    split at hb
    next heq =>
      subst heq
      cases hb
      rw [CachedAddress.noted_utxos]
      exact h.exact hash' a ha o
    · exact h.exact hash' b hb o

theorem spend (h : Books B U items (items.length + 1) since s)
    (ha : s.addressMap.lookup hash = some a) (ho : o ∈ a.utxos)
    (hspends : item.spends = some o) (hpays : item.pays B = none)
    (hw : Debits s s' hash a o (worth B U o) txid) :
    Books B U (items ++ [item]) (items.length + 1) since s' := by
  refine ⟨h.consistent.spend ha ho hw, h.bound, ?_,
    fun o' out => h.coins_concat (by simp [hpays]), ?_⟩
  · rw [hw.scriptSet]
    exact h.untracked
  -- nothing is paid, and the spent output leaves the only address that lists it
  have hpaid : ∀ hash' o', (∃ out, (o', out) ∈ paid B ((items ++ [item]).drop (since hash')) ∧
      getSpkHash B out.scriptPubkey = hash') ↔
      ∃ out, (o', out) ∈ paid B (items.drop (since hash')) ∧
        getSpkHash B out.scriptPubkey = hash' := by
    intro hash' o'
    simp [mem_paid_drop_concat, hpays]
  intro hash' b hb o'
  rw [hpaid, mem_spent_concat, hspends, not_or, ← and_assoc]
  rw [hw.addressMap] at hb
  split at hb
  next heq =>
    subst heq
    cases hb
    rw [CachedAddress.noted_utxos, (h.consistent.nodup hash' a ha).mem_erase_iff,
      h.exact hash' a ha o', and_comm]
    simp [eq_comm]
  next hne =>
    rw [h.exact hash' b hb o']
    constructor
    · intro hmem
      refine ⟨hmem, ?_⟩
      intro heq
      cases heq
      exact hne (h.owner_unique hb ((h.exact hash' b hb o).mpr hmem) ha ho)
    · exact fun hmem => hmem.1

theorem pay (h : Books B U items (items.length + 1) since s)
    (ha : s.addressMap.lookup hash = some a) (hsince : since hash ≤ items.length)
    (hnext : Next B U items item) (hspends : item.spends = none)
    (hpays : item.pays B = some (o, out)) (hout : getSpkHash B out.scriptPubkey = hash)
    (htx : o.txid ∈ s.database.transactions)
    (hw : Credits s s' hash a o out.value.sat txid) :
    Books B U (items ++ [item]) (items.length + 1) since s' := by
  rcases hnext.pays o out hpays with ⟨hcoin, hfresh, hunspent, hfits⟩
  have hnone := h.lookup_eq_none hfresh
  have hspent : ∀ o', o' ∉ spent (items ++ [item]) ↔ o' ∉ spent items := by
    intro o'
    simp [mem_spent_concat, hspends]
  have hnotMem : o ∉ a.utxos := fun hmem => by
    rcases (h.mem_paid ha hmem).1 with ⟨out', hout'⟩
    exact hfresh out' hout'
  -- the outputs of the address, with the new one, are unspent outputs of the chain
  have hsum : (a.utxos.map (worth B U)).sum + out.value.sat < 2 ^ 64 := by
    have hle : ((o :: a.utxos).map (worth B U)).sum ≤ total (unspent B (items ++ [item])) := by
      refine sum_worth_le (List.nodup_cons.mpr ⟨hnotMem, h.consistent.nodup hash a ha⟩) ?_
      intro o' ho'
      rcases List.mem_cons.mp ho' with rfl | ho'
      · refine ⟨out, ?_, hcoin⟩
        rw [unspent, List.mem_filter, paid_append]
        exact ⟨List.mem_append_right _ (by simp [paid, hpays]), by simpa [hspent] using hunspent⟩
      · rcases h.mem_paid ha ho' with ⟨⟨out', hout'⟩, hun⟩
        refine ⟨out', ?_, h.coins o' out' hout'⟩
        rw [unspent, List.mem_filter, mem_paid_concat]
        exact ⟨.inl hout', by simpa [hspent] using hun⟩
    have hworth : worth B U o = out.value.sat := by simp [worth, hcoin]
    simp only [List.map_cons, List.sum_cons, hworth] at hle
    omega
  refine ⟨h.consistent.pay ha hcoin hout htx hnone hsum hw, h.bound, ?_,
    fun o' out' => h.coins_concat fun o out hp => (hnext.pays o out hp).1, ?_⟩
  · rw [hw.scriptSet]
    exact h.untracked
  intro hash' b hb o'
  simp only [hspent, mem_paid_drop_concat, hpays]
  rw [hw.addressMap] at hb
  split at hb
  next heq =>
    subst heq
    cases hb
    rw [CachedAddress.noted_utxos, List.mem_append, List.mem_singleton, h.exact hash' a ha o']
    constructor
    · rintro (⟨⟨out', hmem, hout'⟩, hun⟩ | rfl)
      · exact ⟨⟨out', .inl hmem, hout'⟩, hun⟩
      · exact ⟨⟨out, .inr ⟨hsince, rfl⟩, hout⟩, hunspent⟩
    · rintro ⟨⟨out', hmem | ⟨-, hmem⟩, hout'⟩, hun⟩
      · exact .inl ⟨⟨out', hmem, hout'⟩, hun⟩
      · cases hmem
        exact .inr rfl
  next hne =>
    rw [h.exact hash' b hb o']
    refine and_congr_left fun _ => exists_congr fun out' => ?_
    constructor
    · rintro ⟨hmem, hout'⟩
      exact ⟨.inl hmem, hout'⟩
    · rintro ⟨hmem | ⟨-, hmem⟩, hout'⟩
      · exact ⟨hmem, hout'⟩
      · cases hmem
        exact absurd (hout'.symm.trans hout) hne

end Books

/-! ## One look -/

theorem Consistent.prevout (hU : B.TxidInjectiveOn U) (h : Consistent B U s)
    (ho : s.utxoIndex.lookup o = some hash) :
    ∃ a ct out, s.addressMap.lookup hash = some a ∧ o ∈ a.utxos ∧
      s.getTransaction o.txid = some ct ∧ ct.tx.output[o.vout.toNat]? = some out ∧
      coin B U o = some out ∧ getSpkHash B out.scriptPubkey = hash := by
  rcases (h.index o hash).mp ho with ⟨a, ha, hmem⟩
  rcases h.recorded hash a o ha hmem with ⟨htx, out, hcoin, hout⟩
  rcases Finmap.mem_iff.mp htx with ⟨ct, hct⟩
  rcases h.records _ ct hct with ⟨hctU, htxid⟩
  exact ⟨a, ct, out, ha, hmem, hct, (coin_eq hU hctU htxid).symm.trans hcoin, hcoin, hout⟩

theorem Consistent.worth_le (h : Consistent B U s)
    (ha : s.addressMap.lookup hash = some a) (ho : o ∈ a.utxos) :
    worth B U o ≤ a.balance := by
  rw [h.balance hash a ha]
  exact List.le_sum_of_mem (List.mem_map_of_mem ho)

/-- A look at an input that spends an output of the wallet stores the transaction, may derive
addresses, and takes the output from its address. -/
theorem Consistent.look_spend {P : AddressCacheInner → Prop} (hU : B.TxidInjectiveOn U)
    (h : Consistent B U s) {place : Place} {txin : TxIn} {vin : Nat}
    (hindex : s.utxoIndex.lookup txin.previousOutput = some hash)
    (hplaced : (Item.input place tx txin vin).Placed) (hheight : 0 < place.height)
    (hP : Stable B P)
    (hs : ∀ proof, P (stored B s (.record B tx place.height proof place.position))) :
    Ensures (look B M s (.input place tx txin vin)) fun s' =>
      ∃ s1 a txid, P s1 ∧ s1.addressMap.lookup hash = some a ∧ txin.previousOutput ∈ a.utxos ∧
        Debits s1 s' hash a txin.previousOutput (worth B U txin.previousOutput) txid := by
  rcases h.prevout hU hindex with ⟨a, ct, out, ha, ho, hct, hctout, hcoin, -⟩
  rcases MerkleProof.fromBlock_verify (B := B) hplaced.1 with ⟨proof, hproof, -⟩
  have hworth : worth B U txin.previousOutput = out.value.sat := by simp [worth, hcoin]
  have hvalue : out.value.sat ≤ a.balance := hworth ▸ h.worth_le ha ho
  rw [look_input_some hindex ha hct hctout hproof, h.own hash a ha, hworth]
  refine cacheTransaction_ensures (Finmap.mem_of_lookup_eq_some ha) h.stats hP (hs proof) ?_
  intro s1 hs1 hgrows
  have ha1 := hgrows.addressMap hash a ha
  rw [saveTx, if_pos (show 0 < (CachedTransaction.record B tx place.height proof
    place.position).height from hheight)]
  exact (saveNonMempoolTx_spend ha1 hvalue hplaced.2 ho _).mono
    fun s' hw => ⟨s1, a, _, hs1, ha1, ho, hw⟩

/-- A look at an output that pays a tracked script stores the transaction, may derive addresses,
and gives the output to the address. -/
theorem Consistent.look_pay {P : AddressCacheInner → Prop} (h : Consistent B U s) {place : Place}
    {vout : Nat} (hmem : getSpkHash B out.scriptPubkey ∈ s.scriptSet)
    (hplaced : (Item.output place tx out vout).Placed) (hheight : 0 < place.height)
    (hP : Stable B P)
    (hs : ∀ proof, P (stored B s (.record B tx place.height proof place.position))) :
    Ensures (look B M s (.output place tx out vout)) fun s' =>
      ∃ s1 a txid, P s1 ∧ s.addressMap.lookup (getSpkHash B out.scriptPubkey) = some a ∧
        s1.addressMap.lookup (getSpkHash B out.scriptPubkey) = some a ∧
        s1.utxoIndex = s.utxoIndex ∧ (outPoint B tx vout).txid ∈ s1.database.transactions ∧
        Credits s1 s' (getSpkHash B out.scriptPubkey) a (outPoint B tx vout) out.value.sat txid := by
  rcases h.mem_addressMap hmem with ⟨a, ha⟩
  rcases MerkleProof.fromBlock_verify (B := B) hplaced.1 with ⟨proof, hproof, -⟩
  rw [look_output_tracked hmem hproof]
  refine cacheTransaction_ensures (Finmap.mem_of_lookup_eq_some ha) h.stats hP (hs proof) ?_
  intro s1 hs1 hgrows
  have ha1 := hgrows.addressMap _ a ha
  have htx : (outPoint B tx vout).txid ∈ s1.database.transactions := by
    rw [hgrows.transactions]
    exact Finmap.mem_insert.mpr (.inl rfl)
  rw [saveTx, if_pos (show 0 < (CachedTransaction.record B tx place.height proof
    place.position).height from hheight)]
  exact (saveNonMempoolTx_pay ha1 tx out.value.sat vout _).mono
    fun s' hw => ⟨s1, a, _, hs1, ha, ha1, hgrows.utxoIndex, htx, hw⟩

theorem processInput_ensures (hU : B.TxidInjectiveOn U) {place : Place}
    {txin : TxIn} {vin : Nat} (h : Books B U items items.length since s)
    (hnext : Next B U items (.input place tx txin vin)) :
    Ensures (look B M s (.input place tx txin vin)) fun s' =>
      Books B U (items ++ [.input place tx txin vin]) (items.length + 1)
        (restamp s since (items.length + 1)) s' := by
  cases hindex : s.utxoIndex.lookup txin.previousOutput with
  | none =>
    rw [look_input_none hindex]
    refine Ensures.ok (h.skip ?_ ?_ ?_)
    · intro o out hp
      cases hp
    · intro o ho
      cases ho
      exact hindex
    · intro o out hp
      cases hp
  | some hash =>
    refine (h.consistent.look_spend hU hindex hnext.placed hnext.height
      (Books.stable (Nat.le_succ _)) fun _ => h.restamp.stored hnext.mem).mono ?_
    rintro s' ⟨s1, a, txid, hs1, ha1, ho, hw⟩
    exact hs1.spend ha1 ho rfl rfl hw

theorem processOutput_ensures {place : Place} {vout : Nat}
    (h : Books B U items items.length since s)
    (hnext : Next B U items (.output place tx out vout)) :
    Ensures (look B M s (.output place tx out vout)) fun s' =>
      Books B U (items ++ [.output place tx out vout]) (items.length + 1)
        (restamp s since (items.length + 1)) s' := by
  by_cases hmem : getSpkHash B out.scriptPubkey ∈ s.scriptSet
  · refine (h.consistent.look_pay hmem hnext.placed hnext.height
      (Books.stable (Nat.le_succ _)) fun _ => h.restamp.stored hnext.mem).mono ?_
    rintro s' ⟨s1, a, txid, hs1, -, ha1, -, htx, hw⟩
    refine hs1.pay ha1 ?_ hnext rfl rfl rfl htx hw
    rw [restamp, if_pos hmem]
    exact h.since_le _
  · rw [look_output_untracked hmem]
    refine Ensures.ok (h.skip ?_ ?_ ?_)
    · intro o out' hp
      exact (hnext.pays o out' hp).1
    · intro o ho
      cases ho
    · intro o out' hp
      cases hp
      exact hmem

theorem Books.look (hU : B.TxidInjectiveOn U)
    (h : Books B U items items.length since s) (hnext : Next B U items item) :
    Ensures (look B M s item) fun s' =>
      Books B U (items ++ [item]) (items ++ [item]).length
        (Wallet.restamp s since (items ++ [item]).length) s' := by
  have hlen : (items ++ [item]).length = items.length + 1 := by simp
  rw [hlen]
  cases item with
  | input place tx txin vin => exact processInput_ensures hU h hnext
  | output place tx out vout => exact processOutput_ensures h hnext

/-! ## Unconfirmed transactions -/

theorem findSpend_ensures (hU : B.TxidInjectiveOn U) (h : Consistent B U s) (tx : Transaction) :
    Ensures (s.findSpend tx) fun coins =>
      ∀ c ∈ coins, getSpkHash B c.2.scriptPubkey ∈ s.scriptSet := by
  unfold findSpend
  refine Ensures.foldlM (I := fun _ (coins : List (Nat × TxOut)) =>
    ∀ c ∈ coins, getSpkHash B c.2.scriptPubkey ∈ s.scriptSet) _ ?_ ?_
  · intro done input rest coins _ hcoins
    split
    next hmem =>
      rcases Finmap.mem_iff.mp hmem with ⟨hash, hindex⟩
      rcases h.prevout hU hindex with ⟨a, ct, out, ha, -, hct, hctout, -, hout⟩
      refine ⟨coins ++ [(input.2, out)], ?_, ?_⟩
      · rw [hct]
        dsimp only [okOr, Bind.bind, Except.bind]
        rw [hctout]
        rfl
      · refine forall_mem_snoc hcoins ?_
        rw [hout, h.tracked]
        exact Finmap.mem_of_lookup_eq_some ha
    · exact Ensures.ok hcoins
  · intro c hc
    exact absurd hc List.not_mem_nil

/-- A property of consistent wallets that unconfirmed transactions do not touch: it survives that
one is stored and that it is listed on an address. -/
structure Mempool (B : Bitcoin) (U : List Transaction) (P : AddressCacheInner → Prop)
    (tx : Transaction) : Prop where
  stable : Stable B P
  consistent : ∀ s, P s → Consistent B U s
  stored : ∀ s, P s → P (stored B s (.record B tx 0 MerkleProof.default 0))
  noted : ∀ s hash a, P s → s.addressMap.lookup hash = some a →
    P (s.noteTransaction hash a (B.computeTxid tx))

namespace Mempool

variable {P : AddressCacheInner → Prop} {tx : Transaction}

theorem cacheUnconfirmed (hP : Mempool B U P tx) (hs : P s) {c : Nat × TxOut}
    (hc : getSpkHash B c.2.scriptPubkey ∈ s.scriptSet) :
    Ensures (cacheUnconfirmed B M tx s c) fun s' => P s' ∧ s.scriptSet ⊆ s'.scriptSet := by
  have hcons := hP.consistent s hs
  rcases hcons.mem_addressMap hc with ⟨a, ha⟩
  have hown := hcons.own _ a ha
  unfold AddressCacheInner.cacheUnconfirmed
  rw [ha]
  change Ensures (s.cacheTransaction B M tx 0 c.2.value.sat MerkleProof.default 0 c.1 true
    a.scriptHash) _
  rw [hown]
  refine cacheTransaction_ensures (Finmap.mem_of_lookup_eq_some ha) hcons.stats hP.stable
    (hP.stored s hs) ?_
  intro s1 hs1 hgrows
  have ha1 := hgrows.addressMap _ a ha
  rw [saveTx, if_neg (by simp [CachedTransaction.record])]
  refine Ensures.ok ⟨?_, ?_⟩
  · unfold saveMempoolTx
    rw [ha1]
    exact hP.noted s1 _ a hs1 ha1
  · rw [(saveMempoolTx_writes ha1 _).scriptSet]
    exact hgrows.scriptSet

theorem cacheMempoolTransaction (hU : B.TxidInjectiveOn U) (hP : Mempool B U P tx) (hs : P s) :
    Ensures (s.cacheMempoolTransaction B M tx) fun r => P r.1 := by
  unfold AddressCacheInner.cacheMempoolTransaction
  refine Ensures.bind (findSpend_ensures hU (hP.consistent s hs) tx) ?_
  intro coins hcoins
  -- the addresses of the spends stay tracked while addresses are added
  have hspends : Ensures (coins.foldlM (AddressCacheInner.cacheUnconfirmed B M tx) s) fun s' =>
      P s' ∧ ∀ c ∈ coins, getSpkHash B c.2.scriptPubkey ∈ s'.scriptSet := by
    refine Ensures.foldlM (I := fun _ s' =>
      P s' ∧ ∀ c ∈ coins, getSpkHash B c.2.scriptPubkey ∈ s'.scriptSet) coins ?_ ⟨hs, hcoins⟩
    intro done c rest s1 hsplit hs1
    have hc : c ∈ coins := by simp [hsplit]
    refine (hP.cacheUnconfirmed hs1.1 (hs1.2 c hc)).mono ?_
    intro s2 hs2
    exact ⟨hs2.1, fun c' hc' => hs2.2 (hs1.2 c' hc')⟩
  refine Ensures.bind hspends ?_
  intro s1 hs1
  have houts : Ensures (tx.output.zipIdx.foldlM (cacheUnconfirmedOutput B M tx) (s1, coins))
      fun r => P r.1 := by
    refine Ensures.foldlM (I := fun _ (r : AddressCacheInner × List (Nat × TxOut)) => P r.1)
      tx.output.zipIdx ?_ hs1.1
    intro done output rest st _ hst
    unfold cacheUnconfirmedOutput
    split
    next hmem =>
      refine Ensures.bind (hP.cacheUnconfirmed (c := (output.2, output.1)) hst hmem) ?_
      intro s2 hs2
      exact Ensures.ok hs2.1
    · exact Ensures.ok hst
  refine Ensures.bind houts ?_
  intro r hr
  exact Ensures.ok hr

end Mempool

theorem Books.mempool (hn : items.length ≤ n) (htx : tx ∈ U) :
    Mempool B U (Books B U items n since) tx where
  stable := Books.stable hn
  consistent _ h := h.consistent
  stored _ h := h.stored htx
  noted s hash a h ha := h.noted ha (noteTransaction_writes s hash a _)

end Floresta.Wallet
