import Floresta.Wallet.Confirmations

/-!
# Rescan — processing blocks again

`rescan_with_block_filters` processes blocks of the chain that the filters name, in the order of
their heights, whether or not the wallet has processed them before.  An output that pays a tracked
script is added once more each time, so the wallet is as before exactly if the rescan takes every
such output away again, and the transactions it touches were stored with their places.
-/

namespace Floresta.Wallet

open Fallible AddressCacheInner Ledger

variable (B : Bitcoin) (M : Miniscript) {o : OutPoint} {hash : Hash256} {item : Item}
  {a : CachedAddress} {tx : Transaction}
variable {out : TxOut} {items : List Item}

/-! ## Rescanning -/

/-- The loop of `rescan_with_block_filters` over the blocks at the given heights. -/
def rescan (chain : List Block) (s : AddressCacheInner) (heights : List Nat) :
    Except Panic AddressCacheInner :=
  heights.foldlM (fun s height =>
    match chain[height]? with
    | none => .ok s
    | some block => (s.blockProcess B M block height).map Prod.fst) s

def rescanItems (chain : List Block) (heights : List Nat) : List Item :=
  heights.flatMap fun height => (chain[height]?).elim [] fun block => blockItems block height

/-- The unspent outputs of a script; none if it is not tracked. -/
def utxosOf (s : AddressCacheInner) (hash : Hash256) : List OutPoint :=
  (s.addressMap.lookup hash).elim [] CachedAddress.utxos

def balanceOf (s : AddressCacheInner) (hash : Hash256) : Nat :=
  (s.addressMap.lookup hash).elim 0 CachedAddress.balance

/-- The same balances, outputs and index, and the same places of transactions. -/
structure Unchanged (s s' : AddressCacheInner) : Prop where
  balance : ∀ hash, balanceOf s' hash = balanceOf s hash
  utxos : ∀ hash, utxosOf s' hash = utxosOf s hash
  utxoIndex : s'.utxoIndex = s.utxoIndex
  height : ∀ txid, s'.getHeight txid = s.getHeight txid
  position : ∀ txid, s'.getPosition txid = s.getPosition txid

/-- The rescan spends what the item pays, and the item's transaction was stored with its place. -/
structure Settled (s : AddressCacheInner) (items : List Item) (item : Item) : Prop where
  spent : ∀ p, item.pays B = some p → p.1 ∈ spent items
  height : s.getHeight (B.computeTxid item.tx) = some item.place.height
  position : s.getPosition (B.computeTxid item.tx) = some item.place.position

section Items

variable {B M} {chain : List Block} {s : AddressCacheInner}

theorem rescan_scan (heights : List Nat) :
    rescan B M chain s heights = scan B M s (rescanItems chain heights) := by
  induction heights generalizing s with
  | nil => rfl
  | cons height heights ih =>
    have hitems : rescanItems chain (height :: heights) =
        ((chain[height]?).elim [] fun block => blockItems block height) ++
          rescanItems chain heights := rfl
    rw [rescan, List.foldlM_cons, hitems, scan_append]
    have hrest : (fun s => heights.foldlM (fun s height =>
        match chain[height]? with
        | none => .ok s
        | some block => (s.blockProcess B M block height).map Prod.fst) s) =
        fun s => scan B M s (rescanItems chain heights) := funext fun s => ih
    rw [hrest]
    cases chain[height]? with
    | none => rfl
    | some block => exact congrArg (· >>= _) (blockProcess_scan s block height)

theorem rescanItems_append (l r : List Nat) :
    rescanItems chain (l ++ r) = rescanItems chain l ++ rescanItems chain r :=
  List.flatMap_append

theorem itemsBetween_add (start n : Nat) :
    itemsBetween chain start (start + n) = rescanItems chain (List.range' start n) := by
  induction n with
  | zero =>
    unfold itemsBetween
    rw [Nat.add_zero, List.drop_eq_nil_of_le (List.length_take_le _ _)]
    rfl
  | succ n ih =>
    rw [List.range'_1_concat, rescanItems_append, ← ih]
    cases hblock : chain[start + n]? with
    | none =>
      -- the chain ends before
      have hlen : chain.zipIdx.length ≤ start + n := by
        simpa using List.getElem?_eq_none_iff.mp hblock
      have htake : chain.zipIdx.take (start + (n + 1)) = chain.zipIdx.take (start + n) := by
        rw [List.take_of_length_le hlen, List.take_of_length_le (by omega)]
      simp [itemsBetween, htake, rescanItems, hblock]
    | some block =>
      have hsucc := itemsBetween_succ hblock (Nat.le_add_right start n)
      rw [← Nat.add_assoc, hsucc]
      simp [rescanItems, hblock]

theorem rescanItems_sublist {start stop : Nat} {heights : List Nat} (hle : start ≤ stop)
    (h : heights.Sublist (List.range' start (stop - start))) :
    (rescanItems chain heights).Sublist (itemsBetween chain start stop) := by
  have hstop : stop = start + (stop - start) := by omega
  rw [hstop, itemsBetween_add]
  exact h.flatMap _

end Items

/-! ## What a look does to the outputs -/

section Outputs

variable {B M} {s s' : AddressCacheInner}

theorem utxosOf_of_lookup
    (h : s.addressMap.lookup hash = some a) : utxosOf s hash = a.utxos := by
  rw [utxosOf, h]
  rfl

theorem utxosOf_cacheAddress (s : AddressCacheInner) (script : Script) (hash : Hash256) :
    utxosOf (s.cacheAddress B script) hash = utxosOf s hash := by
  cases hold : s.addressMap.lookup hash with
  | some a =>
    have hnew := ((Grows.refl s).cacheAddress (B := B) script).addressMap hash a hold
    rw [utxosOf_of_lookup hold, utxosOf_of_lookup hnew]
  | none =>
    cases hnew : (s.cacheAddress B script).addressMap.lookup hash with
    | none => rw [utxosOf, utxosOf, hold, hnew]
    | some a =>
      rcases lookup_cacheAddress hnew with ha | ⟨-, rfl⟩
      · cases hold.symm.trans ha
      · rw [utxosOf, utxosOf, hold, hnew]
        rfl

theorem utxosOf_stable (s : AddressCacheInner) :
    Stable B fun t => ∀ hash, utxosOf t hash = utxosOf s hash where
  cacheAddress t script h := fun hash => (utxosOf_cacheAddress t script hash).trans (h hash)
  derivedIndex _ _ h := h
  saveStats _ _ h := h

theorem mem_stable (hash : Hash256) : Stable B fun t => hash ∈ t.addressMap where
  cacheAddress t script h := by
    rcases Finmap.mem_iff.mp h with ⟨a, ha⟩
    exact Finmap.mem_of_lookup_eq_some
      (((Grows.refl t).cacheAddress script).addressMap hash a ha)
  derivedIndex _ _ h := h
  saveStats _ _ h := h

theorem Writes.utxosOf {index : HashMap OutPoint Hash256}
    (hw : Writes s s' hash a index) (hash' : Hash256) :
    utxosOf s' hash' = if hash' = hash then a.utxos else utxosOf s hash' := by
  unfold Wallet.utxosOf
  rw [hw.addressMap]
  split <;> rfl

theorem saveNonMempoolTx_utxosOf {isSpend : Bool} {value index : Nat}
    {cached : CachedTransaction} (hmem : hash ∈ s.addressMap)
    (hok : s.saveNonMempoolTx B tx isSpend value index hash cached = .ok s') (hash' : Hash256) :
    utxosOf s' hash' =
      if hash' = hash then
        if isSpend then (tx.input[index]?).elim (utxosOf s hash') fun input =>
          (utxosOf s hash').erase input.previousOutput
        else utxosOf s hash' ++ [outPoint B tx index]
      else utxosOf s hash' := by
  rcases Finmap.mem_iff.mp hmem with ⟨a, ha⟩
  cases isSpend with
  | false =>
    cases (saveNonMempoolTx_pay_eq (B := B) ha tx value index cached).symm.trans hok
    rw [(noteTransaction_writes_index ..).utxosOf]
    split
    next heq =>
      subst heq
      simp [utxosOf_of_lookup ha]
    · rfl
  | true =>
    unfold saveNonMempoolTx at hok
    simp only [ha, if_true, bind_eq_ok] at hok
    rcases hok with ⟨⟨a', index'⟩, hspend, hok⟩
    cases hok
    simp only [spendUtxo, bind_eq_ok, require_eq_ok, okOr_eq_ok] at hspend
    rcases hspend with ⟨_, -, input, hinput, hspend⟩
    have hutxos : a'.utxos = a.utxos.erase input.previousOutput := by
      split at hspend
      · cases hspend
        rfl
      next hnot =>
        cases hspend
        exact (List.erase_of_not_mem hnot).symm
    rw [(noteTransaction_writes_index ..).utxosOf]
    split
    next heq =>
      subst heq
      simp [utxosOf_of_lookup ha, hinput, hutxos]
    · rfl

theorem cacheTransaction_utxosOf {height value : Nat} {proof : MerkleProof}
    {position index : Nat} {isSpend : Bool} (hheight : 0 < height)
    (h : s.cacheTransaction B M tx height value proof position index isSpend hash = .ok s')
    (hash' : Hash256) : utxosOf s' hash' =
      if hash' = hash then
        if isSpend then (tx.input[index]?).elim (utxosOf s hash') fun input =>
          (utxosOf s hash').erase input.previousOutput
        else utxosOf s hash' ++ [outPoint B tx index]
      else utxosOf s hash' := by
  rcases bind_eq_ok.mp h with ⟨s1, hfollow, h⟩
  rcases bind_eq_ok.mp h with ⟨s2, hderive, hsave⟩
  rw [if_pos hheight] at hsave
  have hs1 : hash ∈ s1.addressMap ∧ ∀ hash', utxosOf s1 hash' = utxosOf s hash' := by
    unfold followAddress at hfollow
    split at hfollow
    next hmem =>
      cases hfollow
      exact ⟨hmem, fun _ => rfl⟩
    next hnot =>
      rcases bind_eq_ok.mp hfollow with ⟨out, -, hfollow⟩
      cases hfollow
      refine ⟨Finmap.mem_insert.mpr (.inl rfl), fun hash' => ?_⟩
      unfold utxosOf
      change Option.elim ((s.addressMap.insert hash _).lookup hash') [] _ = _
      rw [lookup_insert_eq]
      split
      next heq =>
        have hnone : s.addressMap.lookup hash' = none := Finmap.lookup_eq_none.mpr (heq ▸ hnot)
        rw [hnone]
        rfl
      · rfl
  have hs2 : ∀ hash', utxosOf s2 hash' = utxosOf s hash' := fun hash' =>
    ((utxosOf_stable s1).maybeDeriveAddresses (fun _ => rfl) hderive hash').trans (hs1.2 hash')
  have hmem2 : hash ∈ s2.addressMap := (mem_stable hash).maybeDeriveAddresses hs1.1 hderive
  rw [saveNonMempoolTx_utxosOf hmem2 hsave, hs2]

theorem count_le_of_look (hplaced : item.Placed) (hheight : 0 < item.place.height)
    (hlook : look B M s item = .ok s') (ho : item.spends ≠ some o)
    (hash : Hash256) : (utxosOf s hash).count o ≤ (utxosOf s' hash).count o := by
  cases htouches : item.touches B s with
  | none =>
    cases (look_of_untouched (M := M) htouches).symm.trans hlook
    exact Nat.le_refl _
  | some owner =>
  cases item with
  | input place tx txin vin =>
    rcases look_input_ok htouches hlook with ⟨a, value, proof, -, -, hok⟩
    have hne : o ≠ txin.previousOutput := fun heq => ho (congrArg some heq.symm)
    rw [cacheTransaction_utxosOf hheight hok hash]
    split
    · rw [if_pos rfl, hplaced.2, Option.elim_some, List.count_erase_of_ne hne]
    · exact Nat.le_refl _
  | output place tx out vout =>
    rcases look_output_ok (Item.touches_output.mp htouches).1 hlook with ⟨proof, -, hok⟩
    rw [cacheTransaction_utxosOf hheight hok hash]
    split
    · rw [if_neg Bool.false_ne_true, List.count_append]
      exact Nat.le_add_right _ _
    · exact Nat.le_refl _

theorem count_lt_of_look (hheight : 0 < item.place.height)
    (hlook : look B M s item = .ok s') (htouches : (item.touches B s).isSome)
    (hpays : item.pays B = some (o, out)) :
    (utxosOf s (getSpkHash B out.scriptPubkey)).count o <
      (utxosOf s' (getSpkHash B out.scriptPubkey)).count o := by
  cases item with
  | input place tx txin vin => cases hpays
  | output place tx out' vout =>
    cases hpays
    obtain ⟨owner, htouches⟩ := Option.isSome_iff_exists.mp htouches
    rcases look_output_ok (Item.touches_output.mp htouches).1 hlook with ⟨proof, -, hok⟩
    rw [cacheTransaction_utxosOf hheight hok, if_pos rfl, if_neg Bool.false_ne_true]
    simp

section

variable (hplaced : ∀ item ∈ items, item.Placed) (hheight : ∀ item ∈ items, 0 < item.place.height)
    (hscan : scan B M s items = .ok s')

include hplaced hheight hscan

theorem count_le_of_scan (ho : o ∉ spent items) (hash : Hash256) :
    (utxosOf s hash).count o ≤ (utxosOf s' hash).count o := by
  induction items generalizing s with
  | nil =>
    cases hscan
    exact Nat.le_refl _
  | cons item items ih =>
    rw [scan, List.foldlM_cons, bind_eq_ok] at hscan
    rcases hscan with ⟨t, hlook, hscan⟩
    have hmem : item ∈ item :: items := List.mem_cons_self
    have hfirst : item.spends ≠ some o := fun heq =>
      ho (List.mem_filterMap.mpr ⟨item, hmem, heq⟩)
    have hrest : o ∉ spent items := fun hin =>
      ho (((List.sublist_cons_self item items).filterMap _).mem hin)
    calc
      (utxosOf s hash).count o ≤ (utxosOf t hash).count o :=
        count_le_of_look (hplaced item hmem) (hheight item hmem) hlook hfirst hash
      _ ≤ (utxosOf s' hash).count o :=
        ih (fun i hi => hplaced i (List.mem_cons_of_mem _ hi))
          (fun i hi => hheight i (List.mem_cons_of_mem _ hi)) hscan hrest

theorem count_lt_of_scan (hitem : item ∈ touched B M s items) (hpays : item.pays B = some (o, out))
    (ho : o ∉ spent items) :
    (utxosOf s (getSpkHash B out.scriptPubkey)).count o <
      (utxosOf s' (getSpkHash B out.scriptPubkey)).count o := by
  induction items generalizing s with
  | nil => cases hitem
  | cons head items ih =>
    rw [scan, List.foldlM_cons, bind_eq_ok] at hscan
    rcases hscan with ⟨t, hlook, hscan⟩
    have hmem : head ∈ head :: items := List.mem_cons_self
    have hfirst : head.spends ≠ some o := fun heq =>
      ho (List.mem_filterMap.mpr ⟨head, hmem, heq⟩)
    have hrest : o ∉ spent items := fun hin =>
      ho (((List.sublist_cons_self head items).filterMap _).mem hin)
    have hplaced' : ∀ i ∈ items, i.Placed := fun i hi => hplaced i (List.mem_cons_of_mem _ hi)
    have hheight' : ∀ i ∈ items, 0 < i.place.height :=
      fun i hi => hheight i (List.mem_cons_of_mem _ hi)
    have hlater : item ∈ touched B M t items →
        (utxosOf s (getSpkHash B out.scriptPubkey)).count o <
          (utxosOf s' (getSpkHash B out.scriptPubkey)).count o := fun hin =>
      (count_le_of_look (hplaced head hmem) (hheight head hmem) hlook hfirst _).trans_lt
        (ih hplaced' hheight' hscan hin hrest)
    rw [touched, hlook] at hitem
    dsimp only [Except.toOption, Option.elim_some] at hitem
    split at hitem
    next htouches =>
      rcases List.mem_cons.mp hitem with rfl | hin
      · exact (count_lt_of_look (hheight item hmem) hlook htouches hpays).trans_le
          (count_le_of_scan hplaced' hheight' hscan hrest _)
      · exact hlater hin
    · exact hlater hitem

end

end Outputs

/-! ## A rescan that changes nothing -/

section Necessary

variable {B M} {chain : List Block} {s s' : AddressCacheInner} {items : List Item}

section

variable (honce : ((chain.flatMap Block.txdata).map B.computeTxid).Nodup)
    (hitems : ∀ item ∈ items, item.Placed ∧ chain[item.place.height]? = some item.place.block)

include honce hitems

theorem reads_of_touched (hscan : scan B M s items = .ok s') (hitem : item ∈ touched B M s items) :
    s'.getHeight (B.computeTxid item.tx) = some item.place.height ∧
      s'.getPosition (B.computeTxid item.tx) = some item.place.position := by
  have hlogged : Logged B s.database.transactions
      ((touched B M s items).reverse.map .confirmed ++ []) s' :=
    Logged.scan (fun txid => rfl) hscan
  rw [List.append_nil] at hlogged
  -- the last sighting of the transaction is at its one place
  cases hlast : lastSighting B ((touched B M s items).reverse.map .confirmed)
      (B.computeTxid item.tx) with
  | none =>
    have hnot := List.find?_eq_none.mp hlast (.confirmed item)
      (List.mem_map_of_mem (List.mem_reverse.mpr hitem))
    exact absurd (decide_eq_true rfl) hnot
  | some sighting =>
    rcases List.mem_map.mp (List.mem_of_find?_eq_some hlast) with ⟨item', hitem', rfl⟩
    have hfound := List.find?_some hlast
    have htxid : B.computeTxid item'.tx = B.computeTxid item.tx := of_decide_eq_true hfound
    rcases hitems item (mem_of_mem_touched hitem) with ⟨hplaced, hblock⟩
    rcases hitems item' (mem_of_mem_touched (List.mem_reverse.mp hitem')) with
      ⟨hplaced', hblock'⟩
    rcases place_unique honce hblock' hplaced'.block hblock hplaced.block htxid with
      ⟨hheight, hposition⟩
    rcases MerkleProof.fromBlock_verify (B := B) hplaced'.block with ⟨proof, hproof, -⟩
    have hrecord : s'.database.transactions.lookup (B.computeTxid item.tx) =
        some (.record B item'.tx item'.place.height proof item'.place.position) := by
      rw [hlogged, hlast, Option.elim_some, Sighting.record, hproof]
      rfl
    rcases reads_of_record hrecord with ⟨-, hh, hp⟩
    rw [hh, hp, hheight, hposition]
    exact ⟨rfl, rfl⟩

theorem settled_of_unchanged (hheight : ∀ item ∈ items, 0 < item.place.height)
    (hscan : scan B M s items = .ok s') (h : Unchanged s s') (hitem : item ∈ touched B M s items) :
    Settled B s items item := by
  have hreads := reads_of_touched honce hitems hscan hitem
  refine ⟨?_, ?_, ?_⟩
  · rintro ⟨o, out⟩ hpays
    by_contra ho
    have hlt := count_lt_of_scan (fun i hi => (hitems i hi).1) hheight hscan hitem hpays ho
    rw [h.utxos] at hlt
    exact Nat.lt_irrefl _ hlt
  · rw [← h.height]
    exact hreads.1
  · rw [← h.position]
    exact hreads.2

end

end Necessary

/-! ## Outputs that the rescan adds and will take away -/

/-- The outputs of a list that pay a script. -/
def pendingOf (pending : List (OutPoint × TxOut)) (hash : Hash256) : List OutPoint :=
  (pending.filter fun p => getSpkHash B p.2.scriptPubkey = hash).map Prod.fst

/-- The wallet during a rescan of `s`: it lists the outputs in `pending` on top of its own. -/
structure Pending (U : List Transaction) (s : AddressCacheInner) (pending : List (OutPoint × TxOut))
    (t : AddressCacheInner) : Prop where
  consistent : Consistent B U t
  utxos : ∀ hash, utxosOf t hash = utxosOf s hash ++ pendingOf B pending hash
  coins : ∀ p ∈ pending, coin B U p.1 = some p.2
  nodup : (pending.map Prod.fst).Nodup
  height : ∀ txid, t.getHeight txid = s.getHeight txid
  position : ∀ txid, t.getPosition txid = s.getPosition txid

section Reads

variable {B} {U : List Transaction} {s t : AddressCacheInner}

theorem Indexed.index_iff (h : Indexed s) :
    s.utxoIndex.lookup o = some hash ↔ o ∈ utxosOf s hash := by
  rw [h.index, utxosOf]
  cases s.addressMap.lookup hash with
  | none => simp
  | some a => simp

theorem Consistent.balanceOf_eq (h : Consistent B U s) (hash : Hash256) :
    balanceOf s hash = ((utxosOf s hash).map (worth B U)).sum := by
  unfold balanceOf utxosOf
  cases ha : s.addressMap.lookup hash with
  | none => rfl
  | some a => exact h.balance hash a ha

theorem reads_congr (h : t.database.transactions = s.database.transactions) (txid : Txid) :
    t.getHeight txid = s.getHeight txid ∧ t.getPosition txid = s.getPosition txid := by
  have hget : t.getTransaction txid = s.getTransaction txid :=
    congrArg (fun transactions => transactions.lookup txid) h
  rw [getHeight, getHeight, getPosition, getPosition, hget]
  exact ⟨rfl, rfl⟩

theorem Pending.unchanged (hs : Consistent B U s) (h : Pending B U s [] t) : Unchanged s t := by
  have hutxos : ∀ hash, utxosOf t hash = utxosOf s hash := fun hash =>
    (h.utxos hash).trans (List.append_nil _)
  refine ⟨?_, hutxos, ?_, h.height, h.position⟩
  · intro hash
    rw [h.consistent.balanceOf_eq, hs.balanceOf_eq, hutxos]
  · refine Finmap.ext_lookup fun o => Option.ext fun hash => ?_
    rw [h.consistent.index_iff, hs.index_iff, hutxos]

theorem mem_pendingOf {pending : List (OutPoint × TxOut)} :
    o ∈ pendingOf B pending hash ↔
      ∃ out, (o, out) ∈ pending ∧ getSpkHash B out.scriptPubkey = hash := by
  simp [pendingOf, List.mem_map, List.mem_filter]

theorem pendingOf_nodup {pending : List (OutPoint × TxOut)} (h : (pending.map Prod.fst).Nodup)
    (hash : Hash256) : (pendingOf B pending hash).Nodup :=
  h.sublist ((List.filter_sublist).map _)

theorem pendingOf_erase {pending : List (OutPoint × TxOut)} (h : (pending.map Prod.fst).Nodup)
    (o : OutPoint) (hash : Hash256) :
    pendingOf B (pending.filter fun p => p.1 ≠ o) hash = (pendingOf B pending hash).erase o := by
  rw [(pendingOf_nodup h hash).erase_eq_filter]
  unfold pendingOf
  rw [List.filter_map, List.filter_filter, List.filter_filter]
  refine congrArg (List.map Prod.fst) (List.filter_congr fun p _ => ?_)
  simp only [Function.comp, Bool.and_comm, bne, beq_eq_decide, decide_not]

end Reads

namespace Pending

variable {B} {U : List Transaction} {s t t' : AddressCacheInner}
  {pending : List (OutPoint × TxOut)}

theorem stable : Stable B (Pending B U s pending) where
  cacheAddress t script h := by
    have hgrows := (Grows.refl t).cacheAddress (B := B) script
    refine ⟨h.consistent.cacheAddress script, ?_, h.coins, h.nodup, ?_, ?_⟩
    · intro hash
      rw [utxosOf_cacheAddress]
      exact h.utxos hash
    · exact fun txid => (reads_congr hgrows.transactions txid).1.trans (h.height txid)
    · exact fun txid => (reads_congr hgrows.transactions txid).2.trans (h.position txid)
  derivedIndex _ _ h :=
    ⟨Consistent.stable.derivedIndex _ _ h.consistent, h.utxos, h.coins, h.nodup, h.height,
      h.position⟩
  saveStats _ _ h :=
    { h with consistent := Consistent.stable.saveStats _ _ h.consistent }

theorem stored (h : Pending B U s pending t) {record : CachedTransaction} (htx : record.tx ∈ U)
    (hheight : s.getHeight (B.computeTxid record.tx) = some record.height)
    (hposition : s.getPosition (B.computeTxid record.tx) = some record.position) :
    Pending B U s pending (stored B t record) := by
  have hget : ∀ txid, (Wallet.stored B t record).getTransaction txid =
      if txid = B.computeTxid record.tx then some record else t.getTransaction txid :=
    fun txid => lookup_insert_eq _ _ _ _
  refine ⟨h.consistent.saveTransaction htx, h.utxos, h.coins, h.nodup, ?_, ?_⟩
  · intro txid
    rw [getHeight, hget]
    split
    next heq =>
      subst heq
      exact hheight.symm
    · exact h.height txid
  · intro txid
    rw [getPosition, hget]
    split
    next heq =>
      subst heq
      exact hposition.symm
    · exact h.position txid

theorem spend (h : Pending B U s pending t)
    (ha : t.addressMap.lookup hash = some a) (ho : o ∈ a.utxos)
    (hbase : ∀ hash, o ∉ utxosOf s hash) {txid : Txid}
    (hw : Debits t t' hash a o (worth B U o) txid) :
    Pending B U s (pending.filter fun p => p.1 ≠ o) t' := by
  refine ⟨h.consistent.spend ha ho hw, ?_, ?_, ?_, ?_, ?_⟩
  · intro hash'
    rw [hw.utxosOf, pendingOf_erase h.nodup, ← List.erase_append_right _ (hbase hash'), ← h.utxos]
    split
    next heq =>
      subst heq
      rw [CachedAddress.noted_utxos, utxosOf_of_lookup ha]
    next hne =>
      -- the output has one owner
      have hmine : o ∈ utxosOf t hash := by rwa [utxosOf_of_lookup ha]
      refine (List.erase_of_not_mem fun hother => hne ?_).symm
      exact Option.some.inj ((h.consistent.index_iff.mpr hother).symm.trans
        (h.consistent.index_iff.mpr hmine))
  · exact fun p hp => h.coins p (List.mem_of_mem_filter hp)
  · exact h.nodup.sublist (List.filter_sublist.map _)
  · exact fun txid => (reads_congr hw.transactions txid).1.trans (h.height txid)
  · exact fun txid => (reads_congr hw.transactions txid).2.trans (h.position txid)

theorem pay (h : Pending B U s pending t) (ha : t.addressMap.lookup hash = some a)
    (hcoin : coin B U o = some out) (hout : getSpkHash B out.scriptPubkey = hash)
    (htx : o.txid ∈ t.database.transactions) (hnew : t.utxoIndex.lookup o = none)
    (hfresh : o ∉ pending.map Prod.fst)
    (hfits : (a.utxos.map (worth B U)).sum + out.value.sat < 2 ^ 64) {txid : Txid}
    (hw : Credits t t' hash a o out.value.sat txid) :
    Pending B U s (pending ++ [(o, out)]) t' := by
  refine ⟨h.consistent.pay ha hcoin hout htx hnew hfits hw, ?_, ?_, ?_, ?_, ?_⟩
  · intro hash'
    rw [hw.utxosOf]
    split
    next heq =>
      subst heq
      rw [CachedAddress.noted_utxos, ← utxosOf_of_lookup ha, h.utxos]
      simp [pendingOf, List.filter_append, hout]
    next hne =>
      rw [h.utxos]
      have hother : getSpkHash B out.scriptPubkey ≠ hash' := fun heq => hne (heq.symm.trans hout)
      simp [pendingOf, List.filter_append, hother]
  · exact forall_mem_snoc h.coins hcoin
  · rw [List.map_append]
    exact nodup_snoc h.nodup hfresh
  · exact fun txid => (reads_congr hw.transactions txid).1.trans (h.height txid)
  · exact fun txid => (reads_congr hw.transactions txid).2.trans (h.position txid)

variable {M : Miniscript}

theorem look_input (hU : B.TxidInjectiveOn U) (h : Pending B U s pending t) {place : Place}
    {txin : TxIn} {vin : Nat} (hplaced : (Item.input place tx txin vin).Placed)
    (hheight : 0 < place.height) (htx : tx ∈ U)
    (hbase : ∀ hash, txin.previousOutput ∉ utxosOf s hash)
    (hreads : ((Item.input place tx txin vin).touches B t).isSome →
      s.getHeight (B.computeTxid tx) = some place.height ∧
        s.getPosition (B.computeTxid tx) = some place.position) :
    Ensures (look B M t (.input place tx txin vin))
      (Pending B U s (pending.filter fun p => p.1 ≠ txin.previousOutput)) := by
  cases hindex : t.utxoIndex.lookup txin.previousOutput with
  | none =>
    rw [look_input_none hindex]
    -- nothing pending is spent
    have hall : (pending.filter fun p => p.1 ≠ txin.previousOutput) = pending := by
      refine List.filter_eq_self.mpr fun p hp => ?_
      refine decide_eq_true fun heq => ?_
      have hmem : txin.previousOutput ∈ utxosOf t (getSpkHash B p.2.scriptPubkey) := by
        rw [h.utxos]
        refine List.mem_append_right _ (mem_pendingOf.mpr ⟨p.2, ?_, rfl⟩)
        rw [← heq]
        exact hp
      rw [h.consistent.index_iff.mpr hmem] at hindex
      cases hindex
    rw [hall]
    exact Ensures.ok h
  | some hash =>
    rcases hreads (by rw [Item.touches, hindex]; rfl) with ⟨hreadHeight, hreadPosition⟩
    refine (h.consistent.look_spend hU hindex hplaced hheight stable
      fun _ => h.stored htx hreadHeight hreadPosition).mono ?_
    rintro t' ⟨t₁, a, txid, ht1, ha1, ho, hw⟩
    exact ht1.spend ha1 ho hbase hw

theorem look_output (h : Pending B U s pending t) {place : Place}
    {vout : Nat} (hplaced : (Item.output place tx out vout).Placed) (hheight : 0 < place.height)
    (htx : tx ∈ U) (hcoin : coin B U (outPoint B tx vout) = some out)
    (hreads : ((Item.output place tx out vout).touches B t).isSome →
      (∀ hash, outPoint B tx vout ∉ utxosOf s hash) ∧
      outPoint B tx vout ∉ pending.map Prod.fst ∧
      (∀ hash, ((utxosOf t hash).map (worth B U)).sum + out.value.sat < 2 ^ 64) ∧
      s.getHeight (B.computeTxid tx) = some place.height ∧
        s.getPosition (B.computeTxid tx) = some place.position) :
    Ensures (look B M t (.output place tx out vout)) fun t' =>
      if ((Item.output place tx out vout).touches B t).isSome then
        Pending B U s (pending ++ [(outPoint B tx vout, out)]) t'
      else Pending B U s pending t' := by
  by_cases hmem : getSpkHash B out.scriptPubkey ∈ t.scriptSet
  · have htouches : ((Item.output place tx out vout).touches B t).isSome := by
      rw [Item.touches_output.mpr ⟨hmem, rfl⟩]
      rfl
    simp only [htouches, if_true]
    rcases hreads htouches with ⟨hbase, hfresh, hfits, hreadHeight, hreadPosition⟩
    refine (h.consistent.look_pay hmem hplaced hheight stable
      fun _ => h.stored htx hreadHeight hreadPosition).mono ?_
    rintro t' ⟨t₁, a, txid, ht1, ha, ha1, hindex, hstored, hw⟩
    have hnew : t₁.utxoIndex.lookup (outPoint B tx vout) = none := by
      rw [hindex]
      refine Option.eq_none_iff_forall_ne_some.mpr fun hash heq => ?_
      have hin := h.consistent.index_iff.mp heq
      rw [h.utxos] at hin
      rcases List.mem_append.mp hin with hin | hin
      · exact hbase hash hin
      · rcases mem_pendingOf.mp hin with ⟨out', hin, -⟩
        exact hfresh (List.mem_map_of_mem hin)
    refine ht1.pay ha1 hcoin rfl hstored hnew hfresh ?_ hw
    rw [← utxosOf_of_lookup ha]
    exact hfits _
  · have htouches : (Item.output place tx out vout).touches B t = none := if_neg hmem
    rw [look_of_untouched htouches, htouches]
    exact Ensures.ok (by simpa using h)

end Pending

/-! ## Looking again -/

/-- Items that the wallet has looked at before: it lists nothing that they spend, they come in the
order of the chain, and the outputs that are pending at any moment fit a balance next to those it
lists. -/
structure Again (U : List Transaction) (s : AddressCacheInner) (items : List Item) : Prop where
  placed : ∀ item ∈ items, item.Placed
  height : ∀ item ∈ items, 0 < item.place.height
  mem : ∀ item ∈ items, item.tx ∈ U
  spends : ∀ o ∈ spent items, ∀ hash, o ∉ utxosOf s hash
  pays : ∀ l item r, items = l ++ item :: r → ∀ o out, item.pays B = some (o, out) →
    coin B U o = some out ∧ o ∉ (paid B l).map Prod.fst ∧ o ∉ spent l
  fits : ∀ l item r, items = l ++ item :: r → ∀ o out, item.pays B = some (o, out) →
    o ∈ spent r → ∀ os : List OutPoint, os.Nodup →
      (∀ o' ∈ os, o' ∈ (paid B l).map Prod.fst ∧ o' ∈ spent r) → ∀ hash,
        ((utxosOf s hash).map (worth B U)).sum + (os.map (worth B U)).sum + out.value.sat < 2 ^ 64

section Sufficient

variable {B M} {U : List Transaction} {s : AddressCacheInner} {items : List Item}

theorem mem_spent_cons :
    o ∈ spent (item :: items) ↔ item.spends = some o ∨ o ∈ spent items := by
  simp [spent, List.mem_filterMap]

/-- The rescan of settled items: what is pending is always spent later. -/
theorem Again.scan (hU : B.TxidInjectiveOn U) (h : Again B U s items) (rest : List Item) :
    ∀ (done : List Item) (t : AddressCacheInner) (pending : List (OutPoint × TxOut)),
      items = done ++ rest → Pending B U s pending t →
      (∀ p ∈ pending, p.1 ∈ (paid B done).map Prod.fst ∧ p.1 ∈ spent rest) →
      (∀ item ∈ touched B M t rest, Settled B s items item) →
      Ensures (Wallet.scan B M t rest) (Pending B U s []) := by
  induction rest with
  | nil =>
    intro done t pending _ ht hpending _
    have hnil : pending = [] :=
      List.eq_nil_iff_forall_not_mem.mpr fun p hp => absurd (hpending p hp).2 List.not_mem_nil
    subst hnil
    exact Ensures.ok ht
  | cons item rest ih =>
    intro done t pending hsplit ht hpending hsettled
    have hmem : item ∈ items := by simp [hsplit]
    have hconcat : items = (done ++ [item]) ++ rest := by simp [hsplit]
    have hself : (item.touches B t).isSome → Settled B s items item := by
      intro htouches
      refine hsettled item ?_
      rw [touched]
      simp only [htouches, if_true]
      exact List.mem_cons_self
    -- the rest of the scan, once the look has succeeded
    have hnext : ∀ t' pending', look B M t item = .ok t' → Pending B U s pending' t' →
        (∀ p ∈ pending', p.1 ∈ (paid B (done ++ [item])).map Prod.fst ∧ p.1 ∈ spent rest) →
        Ensures (Wallet.scan B M t (item :: rest)) (Pending B U s []) := by
      intro t' pending' hlook ht' hpending'
      have hscan : Wallet.scan B M t (item :: rest) = Wallet.scan B M t' rest := by
        rw [Wallet.scan, List.foldlM_cons, hlook]
        rfl
      rw [hscan]
      refine ih (done ++ [item]) t' pending' hconcat ht' hpending' fun item' hitem' => ?_
      refine hsettled item' ?_
      rw [touched, hlook]
      dsimp only [Except.toOption, Option.elim_some]
      split
      · exact List.mem_cons_of_mem _ hitem'
      · exact hitem'
    have hpaid : ∀ o, o ∈ (paid B done).map Prod.fst →
        o ∈ (paid B (done ++ [item])).map Prod.fst := by
      intro o ho
      rw [paid_append, List.map_append]
      exact List.mem_append_left _ ho
    cases item with
    | input place tx txin vin =>
      have hlook := ht.look_input (M := M) hU (h.placed _ hmem) (h.height _ hmem)
        (h.mem _ hmem) (h.spends _ (List.mem_filterMap.mpr ⟨_, hmem, rfl⟩))
        (fun htouches => ⟨(hself htouches).height, (hself htouches).position⟩)
      rcases hlook with ⟨t', hlook, ht'⟩
      refine hnext t' _ hlook ht' fun p hp => ?_
      rcases List.mem_filter.mp hp with ⟨hp, hne⟩
      rcases hpending p hp with ⟨hin, hlater⟩
      refine ⟨hpaid _ hin, (mem_spent_cons.mp hlater).resolve_left fun heq => ?_⟩
      exact of_decide_eq_true hne (Option.some.inj heq).symm
    | output place tx out vout =>
      rcases h.pays done _ rest hsplit _ _ rfl with ⟨hcoin, hnew, hbefore⟩
      have hlater : ∀ p ∈ pending, p.1 ∈ (paid B done).map Prod.fst ∧ p.1 ∈ spent rest := by
        intro p hp
        rcases hpending p hp with ⟨hin, hout⟩
        exact ⟨hin, (mem_spent_cons.mp hout).resolve_left (by simp [Item.spends])⟩
      have hsoon : ((Item.output place tx out vout).touches B t).isSome →
          outPoint B tx vout ∈ spent rest := by
        intro htouches
        have hspent := (hself htouches).spent _ rfl
        rw [hsplit, spent_append, List.mem_append] at hspent
        exact (mem_spent_cons.mp (hspent.resolve_left hbefore)).resolve_left
          (by simp [Item.spends])
      have hlook := ht.look_output (M := M) (h.placed _ hmem) (h.height _ hmem)
        (h.mem _ hmem) hcoin fun htouches => by
          refine ⟨h.spends _ ((hself htouches).spent _ rfl), ?_, ?_, (hself htouches).height,
            (hself htouches).position⟩
          · intro hin
            rcases List.mem_map.mp hin with ⟨p, hp, heq⟩
            exact hnew (heq ▸ (hlater p hp).1)
          · intro hash
            rw [ht.utxos, List.map_append, List.sum_append]
            refine h.fits done _ rest hsplit _ _ rfl (hsoon htouches) _
              (pendingOf_nodup ht.nodup hash) ?_ hash
            intro o' ho'
            rcases mem_pendingOf.mp ho' with ⟨out', hin, -⟩
            exact hlater _ hin
      rcases hlook with ⟨t', hlook, ht'⟩
      split at ht'
      next htouches =>
        refine hnext t' _ hlook ht' (forall_mem_snoc (fun p hp => ?_) ⟨?_, hsoon htouches⟩)
        · exact ⟨hpaid _ (hlater p hp).1, (hlater p hp).2⟩
        · rw [paid_append, List.map_append]
          exact List.mem_append_right _ (List.mem_map.mpr ⟨_, List.mem_singleton.mpr rfl, rfl⟩)
      · exact hnext t' _ hlook ht' fun p hp => ⟨hpaid _ (hlater p hp).1, (hlater p hp).2⟩

end Sufficient

/-! ## Rescanning blocks of a chain -/

section Chain

variable {B M} {U : List Transaction} {chain : List Block} {start stop n : Nat}
  {s : AddressCacheInner} {since : Hash256 → Nat} {items : List Item}

theorem sublist_split {α : Type} {l r whole : List α} {x : α} (h : (l ++ x :: r).Sublist whole) :
    ∃ L R, whole = L ++ x :: R ∧ l.Sublist L ∧ r.Sublist R := by
  rcases List.append_sublist_iff.mp h with ⟨w1, w2, rfl, hl, hr⟩
  rcases List.cons_sublist_iff.mp hr with ⟨v1, v2, rfl, hx, hr'⟩
  rcases List.append_of_mem hx with ⟨u1, u₂, rfl⟩
  exact ⟨w1 ++ u1, u₂ ++ v2, by simp, hl.trans (List.sublist_append_left _ _),
    hr'.trans (List.sublist_append_right _ _)⟩

theorem not_spent_twice (hspend : Spendable B chain) (h : Ordinary B chain) {l r : List Item}
    (hsplit : chainItems chain = l ++ r) (hpaid : o ∈ (paid B l).map Prod.fst)
    (hlater : o ∈ spent r) : o ∉ spent l := by
  intro hearlier
  rcases List.mem_map.mp hpaid with ⟨⟨o, out⟩, hp, rfl⟩
  rcases List.mem_filterMap.mp hp with ⟨item, hitem, hpays⟩
  rcases List.mem_filterMap.mp hearlier with ⟨first, hfirst, hspends⟩
  rcases List.mem_filterMap.mp hlater with ⟨second, hsecond, hspends'⟩
  have hchain : ∀ i, i ∈ l ∨ i ∈ r → i ∈ chainItems chain := by
    intro i hi
    rw [hsplit]
    exact List.mem_append.mpr hi
  have hconsumes := consumes_of_spends h (hchain item (.inl hitem)) (hchain first (.inl hfirst))
    hpays hspends
  have hconsumes' := consumes_of_spends h (hchain item (.inl hitem))
    (hchain second (.inr hsecond)) hpays hspends'
  have honce := hspend.once
  rw [hsplit, List.filterMap_append] at honce
  exact List.disjoint_of_nodup_append honce (List.mem_filterMap.mpr ⟨first, hfirst, hconsumes⟩)
    (List.mem_filterMap.mpr ⟨second, hsecond, hconsumes'⟩)

theorem maxMoney_add : Amount.MAX_MONEY.sat + Amount.MAX_MONEY.sat < 2 ^ 64 := by decide

theorem Books.worth_le (hspend : Spendable B chain) (hordinary : Ordinary B chain)
    (hmoney : ∀ l r, chainItems chain = l ++ r → total (unspent B l) ≤ Amount.MAX_MONEY.sat)
    (hle : start ≤ stop) (h : Books B U (itemsBetween chain start stop) n since s)
    (hash : Hash256) : ((utxosOf s hash).map (worth B U)).sum ≤ Amount.MAX_MONEY.sat := by
  have hsplit := @chainItems_split chain start stop hle
  cases ha : s.addressMap.lookup hash with
  | none =>
    rw [utxosOf, ha]
    exact Nat.zero_le _
  | some a =>
    rw [utxosOf_of_lookup ha]
    calc
      (a.utxos.map (worth B U)).sum ≤ total (unspent B (itemsBetween chain start stop)) := by
        refine sum_worth_le (h.consistent.nodup hash a ha) fun o ho => ?_
        rcases h.mem_paid ha ho with ⟨⟨out, hout⟩, hun⟩
        exact ⟨out, List.mem_filter.mpr ⟨hout, decide_eq_true hun⟩, h.coins o out hout⟩
      _ ≤ total (unspent B (itemsBetween chain 0 start ++ itemsBetween chain start stop)) :=
        total_unspent_le hspend hordinary hsplit
      _ ≤ Amount.MAX_MONEY.sat := hmoney _ _ hsplit

theorem Books.again (hU : B.TxidInjectiveOn U)
    (hchain : ∀ block ∈ chain, ∀ tx ∈ block.txdata, tx ∈ U) (hspend : Spendable B chain)
    (hordinary : Ordinary B chain)
    (hmoney : ∀ l r, chainItems chain = l ++ r → total (unspent B l) ≤ Amount.MAX_MONEY.sat)
    (hstart : 1 ≤ start) (hle : start ≤ stop)
    (h : Books B U (itemsBetween chain start stop) n since s)
    (hsub : items.Sublist (itemsBetween chain start stop)) : Again B U s items := by
  have hnext : ∀ item ∈ items, ∃ l, Next B U l item := by
    intro item hitem
    rcases List.append_of_mem (hsub.mem hitem) with ⟨l, r, hsplit⟩
    exact ⟨l, next_of_chain hU hchain hspend hordinary hstart hle hsplit⟩
  have hwhole : items.Sublist (chainItems chain) := by
    rw [@chainItems_split chain start stop hle]
    exact hsub.trans ((List.sublist_append_right _ _).trans (List.sublist_append_left _ _))
  have hcoin : ∀ item ∈ items, ∀ o out, item.pays B = some (o, out) → coin B U o = some out := by
    intro item hitem o out hpays
    rcases hnext item hitem with ⟨l, hn⟩
    exact (hn.pays o out hpays).1
  refine ⟨?_, ?_, ?_, ?_, ?_, ?_⟩
  · intro item hitem
    rcases hnext item hitem with ⟨l, hn⟩
    exact hn.placed
  · intro item hitem
    rcases hnext item hitem with ⟨l, hn⟩
    exact hn.height
  · intro item hitem
    rcases hnext item hitem with ⟨l, hn⟩
    exact hn.mem
  · intro o ho hash hin
    cases ha : s.addressMap.lookup hash with
    | none =>
      rw [utxosOf, ha] at hin
      cases hin
    | some a =>
      rw [utxosOf_of_lookup ha] at hin
      exact (h.mem_paid ha hin).2 ((hsub.filterMap _).mem ho)
  · intro l item r hsplit o out hpays
    rcases sublist_split (hsplit ▸ hwhole) with ⟨L, R, hat, hl, -⟩
    refine ⟨hcoin item (by simp [hsplit]) o out hpays, ?_, ?_⟩
    · intro hin
      rcases List.mem_map.mp hin with ⟨⟨o', out'⟩, hp, rfl⟩
      exact hordinary.fresh hat hpays out' ((hl.filterMap _).mem hp)
    · exact fun hin => not_spent_before hspend hordinary hat hpays ((hl.filterMap _).mem hin)
  · intro l item r hsplit o out hpays hlater os hnodup hos hash
    rcases sublist_split (hsplit ▸ hwhole) with ⟨L, R, hat, hl, hr⟩
    have hat' : chainItems chain = (L ++ [item]) ++ R := by simp [hat]
    have hcoinOf : ∀ o' out', (o', out') ∈ paid B l → coin B U o' = some out' := by
      intro o' out' hp
      rcases List.mem_filterMap.mp hp with ⟨item', hitem', hpays'⟩
      exact hcoin item' (by simp [hsplit, hitem']) o' out' hpays'
    -- the outputs that are pending are unspent when the item comes in the chain
    have hopen : ∀ o' out', (o', out') ∈ paid B (L ++ [item]) → o' ∈ spent r →
        (o', out') ∈ unspent B (L ++ [item]) := by
      intro o' out' hp hin
      refine List.mem_filter.mpr ⟨hp, decide_eq_true ?_⟩
      exact not_spent_twice hspend hordinary hat' (List.mem_map_of_mem hp)
        ((hr.filterMap _).mem hin)
    have hnotMem : o ∉ os := by
      intro hin
      rcases List.mem_map.mp (hos o hin).1 with ⟨⟨o', out'⟩, hp, rfl⟩
      exact hordinary.fresh hat hpays out' ((hl.filterMap _).mem hp)
    have hworth : worth B U o = out.value.sat := by
      simp [worth, hcoin item (by simp [hsplit]) o out hpays]
    have hpending : (((o :: os)).map (worth B U)).sum ≤ Amount.MAX_MONEY.sat := by
      refine le_trans (sum_worth_le (List.nodup_cons.mpr ⟨hnotMem, hnodup⟩) ?_) (hmoney _ _ hat')
      intro o' ho'
      rcases List.mem_cons.mp ho' with rfl | ho'
      · refine ⟨out, hopen o' out (mem_paid_concat.mpr (.inr hpays)) hlater, ?_⟩
        exact hcoin item (by simp [hsplit]) o' out hpays
      · rcases hos o' ho' with ⟨hpaid, hin⟩
        rcases List.mem_map.mp hpaid with ⟨⟨o'', out'⟩, hp, rfl⟩
        exact ⟨out', hopen _ out' (mem_paid_concat.mpr (.inl ((hl.filterMap _).mem hp))) hin,
          hcoinOf _ _ hp⟩
    have hbase := h.worth_le hspend hordinary hmoney hle hash
    have hmax := maxMoney_add
    simp only [List.map_cons, List.sum_cons, hworth] at hpending
    omega

/-- A rescan of processed blocks, in the order of their heights, changes no balance, no list of
outputs, neither the index nor the place of a transaction exactly if every item that touches the
wallet is settled: what it pays is spent by the rescanned blocks, and its transaction was stored
with its place in the chain. -/
theorem wallet_rescan_unchanged_iff (hU : B.TxidInjectiveOn U)
    (hchain : ∀ block ∈ chain, ∀ tx ∈ block.txdata, tx ∈ U) (hspend : Spendable B chain)
    (hordinary : Ordinary B chain)
    (hmoney : ∀ l r, chainItems chain = l ++ r → total (unspent B l) ≤ Amount.MAX_MONEY.sat)
    (hstart : 1 ≤ start) (h : Reached B M U chain start s stop) {heights : List Nat}
    (hheights : heights.Sublist (List.range' start (stop - start))) :
    (∃ s', rescan B M chain s heights = .ok s' ∧ Unchanged s s') ↔
      ∀ item ∈ touched B M s (rescanItems chain heights),
        Settled B s (rescanItems chain heights) item := by
  rcases h with ⟨since, h⟩
  have hle := h.start_le
  have hbooks := h.books hU hchain hspend hordinary hstart
  have hsub : (rescanItems chain heights).Sublist (itemsBetween chain start stop) :=
    rescanItems_sublist hle hheights
  have hagain := hbooks.again hU hchain hspend hordinary hmoney hstart hle hsub
  rw [rescan_scan]
  constructor
  · rintro ⟨s', hscan, hunchanged⟩ item hitem
    have hitems : ∀ item ∈ rescanItems chain heights,
        item.Placed ∧ chain[item.place.height]? = some item.place.block := by
      intro item hmem
      rcases mem_itemsBetween (hsub.mem hmem) with ⟨hplaced, -, -, hblock⟩
      exact ⟨hplaced, hblock⟩
    exact settled_of_unchanged hordinary.distinct hitems hagain.height hscan hunchanged hitem
  · intro hsettled
    have hnone : Pending B U s [] s :=
      ⟨hbooks.consistent, fun _ => (List.append_nil _).symm, fun p hp => absurd hp List.not_mem_nil,
        List.nodup_nil, fun _ => rfl, fun _ => rfl⟩
    rcases hagain.scan hU _ [] s [] rfl hnone (fun p hp => absurd hp List.not_mem_nil) hsettled with
      ⟨s', hscan, hs'⟩
    exact ⟨s', hscan, hs'.unchanged hbooks.consistent⟩

end Chain

namespace Sample

/-- Script 7 is paid in the second block, and the third block spends the payment. -/
def passing : List Block := [genesis, funding, emptying]

def settles (s : AddressCacheInner) (items : List Item) (item : Item) : Bool :=
  ((item.pays Bitcoin.sample).all fun p => decide (p.1 ∈ spent items)) &&
    (s.getHeight (Bitcoin.sample.computeTxid item.tx) == some item.place.height &&
      s.getPosition (Bitcoin.sample.computeTxid item.tx) == some item.place.position)

theorem settled_of_settles {s : AddressCacheInner}
    (h : settles s items item = true) : Settled Bitcoin.sample s items item := by
  simp only [settles, Bool.and_eq_true, beq_iff_eq, Option.all_eq_true, decide_eq_true_eq] at h
  exact ⟨h.1, h.2.1, h.2.2⟩

end Sample

open Sample Bitcoin in
theorem wallet_rescan_unchanged_sample : ∃ s s',
    Reached sample miniscript (passing.flatMap Block.txdata) passing 1 s 3 ∧
    touched sample miniscript s (rescanItems passing [1, 2]) ≠ [] ∧
    rescan sample miniscript passing s [1, 2] = .ok s' ∧ Unchanged s s' := by
  have hU : sample.TxidInjectiveOn (passing.flatMap Block.txdata) := by
    unfold Bitcoin.TxidInjectiveOn
    decide +kernel
  have hchain : ∀ block ∈ passing, ∀ tx ∈ block.txdata, tx ∈ passing.flatMap Block.txdata :=
    fun block hblock tx htx => List.mem_flatMap.mpr ⟨block, hblock, htx⟩
  have hmoney : ∀ l r, chainItems passing = l ++ r →
      total (unspent sample l) ≤ Amount.MAX_MONEY.sat := by
    have hall : ∀ i < (chainItems passing).length + 1,
        total (unspent sample ((chainItems passing).take i)) ≤ Amount.MAX_MONEY.sat := by
      decide +kernel
    intro l r hsplit
    have hfits := hall l.length (by rw [hsplit, List.length_append]; omega)
    rwa [hsplit, List.take_left] at hfits
  have hrun : ((passing[1]?).any fun block₁ => (passing[2]?).any fun block₂ =>
      (single.blockProcess sample miniscript block₁ 1).toOption.any fun r1 =>
        (r1.1.blockProcess sample miniscript block₂ 2).toOption.any fun r2 =>
          !(touched sample miniscript r2.1 (rescanItems passing [1, 2])).isEmpty &&
            (touched sample miniscript r2.1 (rescanItems passing [1, 2])).all
              (settles r2.1 (rescanItems passing [1, 2]))) = true := by
    decide +kernel
  rcases (Option.any_eq_true _ _).mp hrun with ⟨block₁, hblock1, hrun⟩
  rcases (Option.any_eq_true _ _).mp hrun with ⟨block₂, hblock2, hrun⟩
  rcases exists_of_any hrun with ⟨⟨s1, found1⟩, hs1, hrun⟩
  rcases exists_of_any hrun with ⟨⟨s2, found2⟩, hs2, hrun⟩
  rcases Bool.and_eq_true_iff.mp hrun with ⟨htouched, hsettled⟩
  have hnew : Watched sample miniscript (passing.flatMap Block.txdata) passing 1
    emptyCache 1 fun _ => 0 := .new new_empty
  have hreached : Reached sample miniscript _ passing 1 s2 3 :=
    ⟨_, ((hnew.address [7]).block hblock1 hs1).block hblock2 hs2⟩
  rcases (wallet_rescan_unchanged_iff hU hchain (by decide +kernel) (by decide +kernel) hmoney
    (Nat.le_refl 1) hreached (show [1, 2].Sublist (List.range' 1 (3 - 1)) by decide)).mpr
      (fun item hitem => settled_of_settles (List.all_eq_true.mp hsettled item hitem)) with
    ⟨s', hrescan, hunchanged⟩
  exact ⟨s2, s', hreached, by simpa using htouched, hrescan, hunchanged⟩

open Sample Bitcoin in
/-- Processing a block again counts its unspent payment again. -/
theorem wallet_rescan_counts_twice : Spendable sample [genesis, funding] ∧
    Ordinary sample [genesis, funding] ∧ ∃ s s',
      Reached sample miniscript [] [genesis, funding] 1 s 2 ∧
      rescan sample miniscript [genesis, funding] s [1] = .ok s' ∧
      balanceOf s (getSpkHash sample [7]) = 50 ∧
      balanceOf s' (getSpkHash sample [7]) = 100 ∧ ¬ Unchanged s s' := by
  refine ⟨by decide +kernel, by decide +kernel, ?_⟩
  have hrun : ((single.blockProcess sample miniscript funding 1).toOption.any fun r =>
      (rescan sample miniscript [genesis, funding] r.1 [1]).toOption.any fun s' =>
        balanceOf r.1 (getSpkHash sample [7]) == 50 &&
          balanceOf s' (getSpkHash sample [7]) == 100) = true := by
    decide +kernel
  rcases exists_of_any hrun with ⟨⟨s, found⟩, hs, hrun⟩
  rcases exists_of_any hrun with ⟨s', hs', hcheck⟩
  simp only [Bool.and_eq_true, beq_iff_eq] at hcheck
  have hnew : Watched sample miniscript [] [genesis, funding] 1 emptyCache 1 fun _ => 0 :=
    .new new_empty
  refine ⟨s, s', ⟨_, (hnew.address [7]).block rfl hs⟩, hs', hcheck.1, hcheck.2, fun h => ?_⟩
  have hbalance := h.balance (getSpkHash sample [7])
  omega

end Floresta.Wallet
