import Floresta.Wallet.Watching

/-!
# History — the wallet over the blocks of a chain

A wallet is opened on an empty database, told what to track, fed the blocks of a chain in order, and
shown unconfirmed transactions in between.  The chain is read as the list of its items; the items a
run has looked at are the ones between the first block it processed and the last.
-/

namespace Floresta.Wallet

open Fallible AddressCacheInner Ledger

variable (B : Bitcoin) (M : Miniscript)
variable {item : Item} {l r : List Item} {o : OutPoint} {out : TxOut} {tx : Transaction}

/-! ## Chains -/

/-- The items of the blocks of heights `start` to `stop - 1`. -/
def itemsBetween (chain : List Block) (start stop : Nat) : List Item :=
  ((chain.zipIdx.take stop).drop start).flatMap fun b => blockItems b.1 b.2

def chainItems (chain : List Block) : List Item :=
  chain.zipIdx.flatMap fun b => blockItems b.1 b.2

/-- The output that an input takes; the input of a coinbase takes none. -/
def Item.consumes : Item → Option OutPoint
  | .input _ tx txin _ => if tx.isCoinbase then none else some txin.previousOutput
  | .output _ _ _ _ => none

/-- Every spent output exists and is spent once. -/
structure Spendable (chain : List Block) : Prop where
  exist : ∀ l item r o, chainItems chain = l ++ item :: r → item.consumes = some o →
    ∃ out, (o, out) ∈ paid B l
  once : ((chainItems chain).filterMap Item.consumes).Nodup

/-- No two transactions of the chain have one txid, outputs can be counted in 32 bits, and the
outputs unspent at any moment are worth less than `2 ^ 64`. -/
structure Ordinary (chain : List Block) : Prop where
  distinct : ((chain.flatMap Block.txdata).map B.computeTxid).Nodup
  outputs : ∀ block ∈ chain, ∀ tx ∈ block.txdata, tx.output.length < 2 ^ 32
  amounts : ∀ l r, chainItems chain = l ++ r → total (unspent B l) < 2 ^ 64

section Chains

variable {B} {chain : List Block} {start stop : Nat}

theorem itemsBetween_succ {block : Block} (h : chain[stop]? = some block) (hle : start ≤ stop) :
    itemsBetween chain start (stop + 1) =
      itemsBetween chain start stop ++ blockItems block stop := by
  have hidx : chain.zipIdx[stop]? = some (block, stop) := by simp [h]
  have hlen : start ≤ (chain.zipIdx.take stop).length := by
    have := (List.getElem?_eq_some_iff.mp h).1
    simp only [List.length_take, List.length_zipIdx]
    omega
  unfold itemsBetween
  rw [List.take_add_one, hidx, List.drop_append_of_le_length hlen, List.flatMap_append]
  simp

theorem chainItems_split (hle : start ≤ stop) :
    chainItems chain = itemsBetween chain 0 start ++ itemsBetween chain start stop ++
      (chain.zipIdx.drop stop).flatMap fun b => blockItems b.1 b.2 := by
  have htake : (chain.zipIdx.take stop).take start = chain.zipIdx.take start := by
    rw [List.take_take, Nat.min_eq_left hle]
  calc
    chainItems chain
        = (chain.zipIdx.take stop ++ chain.zipIdx.drop stop).flatMap fun b => blockItems b.1 b.2 := by
          rw [List.take_append_drop, chainItems]
    _ = ((chain.zipIdx.take stop).take start ++ (chain.zipIdx.take stop).drop start).flatMap
          (fun b => blockItems b.1 b.2) ++
            (chain.zipIdx.drop stop).flatMap fun b => blockItems b.1 b.2 := by
          rw [List.flatMap_append, List.take_append_drop start]
    _ = _ := by
          rw [List.flatMap_append, htake]
          simp [itemsBetween]

theorem mem_itemsBetween (h : item ∈ itemsBetween chain start stop) :
    item.Placed ∧ start ≤ item.place.height ∧ item.place.height < stop ∧
      chain[item.place.height]? = some item.place.block := by
  rcases List.mem_flatMap.mp h with ⟨⟨block, height⟩, hb, hitem⟩
  rcases blockItems_placed hitem with ⟨hplaced, hheight, hblock⟩
  rcases List.mem_iff_getElem?.mp hb with ⟨i, hi⟩
  rw [List.getElem?_drop, List.getElem?_take] at hi
  split at hi
  next hlt =>
    have hi' : chain[start + i]? = some block ∧ start + i = height := by
      simpa using hi
    rcases hi' with ⟨hget, rfl⟩
    dsimp only at hheight hblock
    rw [hheight, hblock]
    exact ⟨hplaced, Nat.le_add_right _ _, hlt, hget⟩
  · cases hi

theorem mem_chainItems (h : item ∈ chainItems chain) :
    item.Placed ∧ chain[item.place.height]? = some item.place.block := by
  have hall : chainItems chain = itemsBetween chain 0 chain.length := by
    simp [chainItems, itemsBetween, List.take_of_length_le]
  rcases mem_itemsBetween (hall ▸ h) with ⟨hplaced, -, -, hblock⟩
  exact ⟨hplaced, hblock⟩

def outputsOf (B : Bitcoin) (tx : Transaction) : List (OutPoint × TxOut) :=
  tx.output.zipIdx.map fun o => (outPoint B tx o.2, o.1)

theorem paid_txItems (place : Place) (tx : Transaction) :
    paid B (txItems place tx) = outputsOf B tx := by
  unfold paid txItems outputsOf
  rw [List.filterMap_append, List.filterMap_map, List.filterMap_map]
  have hin : (Item.pays B ∘ fun i : TxIn × Nat => Item.input place tx i.1 i.2) = fun _ => none := rfl
  have hout : (Item.pays B ∘ fun o : TxOut × Nat => Item.output place tx o.1 o.2) =
      fun o => some (outPoint B tx o.2, o.1) := rfl
  rw [hin, hout, List.filterMap_eq_map']
  simp

theorem flatMap_zipIdx_fst {α β : Type} (l : List α) (f : α → List β) :
    (l.zipIdx.flatMap fun p => f p.1) = l.flatMap f := by
  have hmap : (l.zipIdx.map Prod.fst).flatMap f = l.zipIdx.flatMap fun p => f p.1 :=
    List.flatMap_map ..
  rw [← hmap, List.zipIdx_map_fst]

theorem paid_blockItems (block : Block) (height : Nat) :
    paid B (blockItems block height) = block.txdata.flatMap (outputsOf B) := by
  unfold blockItems
  rw [paid, List.filterMap_flatMap]
  calc
    (block.txdata.zipIdx.flatMap fun t =>
        (txItems ⟨block, height, t.2⟩ t.1).filterMap (Item.pays B))
        = block.txdata.zipIdx.flatMap fun t => outputsOf B t.1 :=
          List.flatMap_congr fun t _ => paid_txItems _ _
    _ = block.txdata.flatMap (outputsOf B) := flatMap_zipIdx_fst _ _

theorem paid_chainItems : paid B (chainItems chain) =
    (chain.flatMap Block.txdata).flatMap (outputsOf B) := by
  unfold chainItems
  rw [paid, List.filterMap_flatMap]
  calc
    (chain.zipIdx.flatMap fun b => (blockItems b.1 b.2).filterMap (Item.pays B))
        = chain.zipIdx.flatMap fun b => b.1.txdata.flatMap (outputsOf B) :=
          List.flatMap_congr fun b _ => paid_blockItems _ _
    _ = chain.flatMap fun block => block.txdata.flatMap (outputsOf B) :=
          flatMap_zipIdx_fst chain fun block => block.txdata.flatMap (outputsOf B)
    _ = _ := List.flatMap_assoc.symm

theorem toNat_ofNat_vout {n : Nat} (h : n < 2 ^ 32) : (UInt32.ofNat n).toNat = n := by
  rw [UInt32.toNat_ofNat']
  exact Nat.mod_eq_of_lt h

theorem outputsOf_fst (tx : Transaction) :
    (outputsOf B tx).map Prod.fst = (List.range tx.output.length).map (outPoint B tx) := by
  unfold outputsOf
  rw [List.map_map, List.range_eq_range', ← List.zipIdx_map_snd, List.map_map]
  rfl

theorem Ordinary.nodup_paid (h : Ordinary B chain) :
    ((paid B (chainItems chain)).map Prod.fst).Nodup := by
  rw [paid_chainItems, List.map_flatMap, List.nodup_flatMap]
  have hsmall : ∀ tx ∈ chain.flatMap Block.txdata, tx.output.length < 2 ^ 32 := by
    intro tx htx
    rcases List.mem_flatMap.mp htx with ⟨block, hblock, htx⟩
    exact h.outputs block hblock tx htx
  constructor
  · -- the outputs of one transaction have different indexes
    intro tx htx
    rw [outputsOf_fst]
    refine List.Nodup.map_on ?_ List.nodup_range
    intro i hi j hj heq
    have hlen := hsmall tx htx
    have hvout := congrArg (fun o => o.vout.toNat) heq
    simp only [outPoint] at hvout
    rw [List.mem_range] at hi hj
    rwa [toNat_ofNat_vout (hi.trans hlen), toNat_ofNat_vout (hj.trans hlen)] at hvout
  · -- different transactions have different txids
    have hdistinct := List.pairwise_map.mp h.distinct
    refine hdistinct.imp ?_
    intro tx tx' hne
    change List.Disjoint _ _
    intro o ho ho'
    dsimp only at ho ho'
    rw [outputsOf_fst] at ho ho'
    rcases List.mem_map.mp ho with ⟨i, -, rfl⟩
    rcases List.mem_map.mp ho' with ⟨j, -, heq⟩
    exact hne (congrArg OutPoint.txid heq).symm

theorem Ordinary.fresh (h : Ordinary B chain) (hsplit : chainItems chain = l ++ item :: r)
    (hpays : item.pays B = some (o, out)) (out' : TxOut) : (o, out') ∉ paid B l := by
  intro hmem
  have hnodup := h.nodup_paid
  have hcons : item :: r = [item] ++ r := rfl
  rw [hsplit, hcons, ← List.append_assoc, paid_append, paid_append, List.map_append,
    List.map_append] at hnodup
  have hdisjoint := List.disjoint_of_nodup_append (List.Nodup.of_append_left hnodup)
  refine hdisjoint (List.mem_map_of_mem (f := Prod.fst) hmem) ?_
  simp [paid, hpays]

theorem Ordinary.vout_lt (h : Ordinary B chain) {place : Place}
    {vout : Nat} (hmem : Item.output place tx out vout ∈ chainItems chain) :
    vout < 2 ^ 32 - 1 := by
  rcases mem_chainItems hmem with ⟨hplaced, hblock⟩
  have hlen := h.outputs _ (List.mem_of_getElem? hblock) _ hplaced.mem
  have hvout := (List.getElem?_eq_some_iff.mp hplaced.2).1
  change tx.output.length < 2 ^ 32 at hlen
  omega

theorem previousOutput_of_isCoinbase {place : Place} {txin : TxIn} {vin : Nat}
    (hmem : Item.input place tx txin vin ∈ chainItems chain) (hcb : tx.isCoinbase = true) :
    txin.previousOutput = OutPoint.null := by
  have htxin : txin ∈ tx.input := List.mem_of_getElem? (mem_chainItems hmem).1.2
  unfold Transaction.isCoinbase at hcb
  split at hcb
  next i hi =>
    rw [hi, List.mem_singleton] at htxin
    subst htxin
    simpa [OutPoint.isNull] using hcb
  · cases hcb

/-- An item that spends an output of the chain consumes it: the outpoint of a coinbase input has an
index that no output has. -/
theorem consumes_of_spends (h : Ordinary B chain) {spender : Item}
    (hitem : item ∈ chainItems chain) (hspender : spender ∈ chainItems chain)
    (hpays : item.pays B = some (o, out)) (hspends : spender.spends = some o) :
    spender.consumes = some o := by
  cases spender with
  | output place tx out vout => cases hspends
  | input place tx txin vin =>
    obtain rfl : txin.previousOutput = o := Option.some.inj hspends
    refine if_neg fun hcb => ?_
    have hnull := previousOutput_of_isCoinbase hspender hcb
    cases item with
    | input place tx txin vin => cases hpays
    | output place' tx' out' vout =>
      have hlt := h.vout_lt hitem
      have hpoint : outPoint B tx' vout = OutPoint.null := by
        rw [← hnull]
        exact congrArg Prod.fst (Option.some.inj hpays)
      have hvout := congrArg (fun o => o.vout.toNat) hpoint
      simp only [outPoint, toNat_ofNat_vout (show vout < 2 ^ 32 by omega)] at hvout
      have hmax : (OutPoint.null.vout).toNat = 2 ^ 32 - 1 := by decide
      omega

theorem not_spent_before (hspend : Spendable B chain) (h : Ordinary B chain)
    (hsplit : chainItems chain = l ++ item :: r)
    (hpays : item.pays B = some (o, out)) : o ∉ spent l := by
  intro hmem
  rcases List.mem_filterMap.mp hmem with ⟨spender, hspender, hspends⟩
  rcases List.append_of_mem hspender with ⟨l1, l2, rfl⟩
  have hconsumes := consumes_of_spends h (show item ∈ chainItems chain by simp [hsplit])
    (show spender ∈ chainItems chain by simp [hsplit]) hpays hspends
  rcases hspend.exist l1 _ (l2 ++ item :: r) _ (by simp [hsplit]) hconsumes with ⟨out', hout'⟩
  refine h.fresh hsplit hpays out' ?_
  rw [paid_append]
  exact List.mem_append_left _ hout'

/-- What the chain says of the unspent outputs of a stretch of its items. -/
theorem total_unspent_le (hspend : Spendable B chain) (h : Ordinary B chain) {before : List Item}
    (hsplit : chainItems chain = before ++ l ++ r) :
    total (unspent B l) ≤ total (unspent B (before ++ l)) := by
  -- what the stretch creates is not spent before it
  have hkeep : unspent B l = (paid B l).filter fun p => p.1 ∉ spent (before ++ l) := by
    unfold unspent
    refine List.filter_congr ?_
    intro p hp
    have hbefore : p.1 ∉ spent before := by
      rcases List.mem_filterMap.mp hp with ⟨item, hitem, hpays⟩
      rcases List.append_of_mem hitem with ⟨l1, l2, rfl⟩
      have hsplit' : chainItems chain = (before ++ l1) ++ item :: (l2 ++ r) := by
        simp [hsplit]
      have hpays' : item.pays B = some (p.1, p.2) := hpays
      have hnot := not_spent_before hspend h hsplit' hpays'
      rw [spent_append] at hnot
      exact fun hmem => hnot (List.mem_append_left _ hmem)
    simp [spent_append, hbefore]
  have hwhole : unspent B (before ++ l) =
      ((paid B before).filter fun p => p.1 ∉ spent (before ++ l)) ++ unspent B l := by
    rw [hkeep]
    unfold unspent
    rw [paid_append, List.filter_append]
  rw [hwhole]
  simp [total]

theorem next_of_chain {U : List Transaction} (hU : B.TxidInjectiveOn U)
    (hchain : ∀ block ∈ chain, ∀ tx ∈ block.txdata, tx ∈ U) (hspend : Spendable B chain)
    (h : Ordinary B chain) (hstart : 1 ≤ start) (hle : start ≤ stop)
    (hsplit : itemsBetween chain start stop = l ++ item :: r) : Next B U l item := by
  have hmem : item ∈ itemsBetween chain start stop := by simp [hsplit]
  rcases mem_itemsBetween hmem with ⟨hplaced, hheight, -, hblock⟩
  have htx : item.tx ∈ U := hchain _ (List.mem_of_getElem? hblock) _ hplaced.mem
  have hwhole := @chainItems_split chain start stop hle
  rw [hsplit] at hwhole
  generalize itemsBetween chain 0 start = before at hwhole
  generalize (chain.zipIdx.drop stop).flatMap (fun b => blockItems b.1 b.2) = after at hwhole
  have hat : chainItems chain = (before ++ l) ++ item :: (r ++ after) := by simp [hwhole]
  refine ⟨hplaced, hstart.trans hheight, htx, ?_⟩
  intro o out hpays
  refine ⟨?_, ?_, ?_, ?_⟩
  · cases item with
    | input place tx txin vin => cases hpays
    | output place tx out' vout =>
      have hlt := h.vout_lt (show Item.output place tx out' vout ∈ chainItems chain by simp [hat])
      cases hpays
      have hcoin := coin_eq hU htx (o := outPoint B tx vout) rfl
      rw [hcoin]
      change tx.output[(UInt32.ofNat vout).toNat]? = some out
      rw [toNat_ofNat_vout (by omega)]
      exact hplaced.2
  · intro out' hout'
    refine h.fresh hat hpays out' ?_
    rw [paid_append]
    exact List.mem_append_right _ hout'
  · intro hspent
    refine not_spent_before hspend h hat hpays ?_
    rw [spent_append]
    exact List.mem_append_right _ hspent
  · have hsplit' : chainItems chain = before ++ (l ++ [item]) ++ (r ++ after) := by simp [hat]
    calc
      total (unspent B (l ++ [item])) ≤ total (unspent B (before ++ (l ++ [item]))) :=
        total_unspent_le hspend h hsplit'
      _ < 2 ^ 64 := h.amounts _ _ hsplit'

end Chains

/-! ### Checking a chain -/

section Decidable

variable {B} {chain : List Block}

theorem spendable_iff : Spendable B chain ↔
    (∀ i < (chainItems chain).length, ∀ o ∈ ((chainItems chain)[i]?.bind Item.consumes).toList,
      o ∈ (paid B ((chainItems chain).take i)).map Prod.fst) ∧
    ((chainItems chain).filterMap Item.consumes).Nodup := by
  constructor
  · intro h
    refine ⟨?_, h.once⟩
    intro i hi o ho
    have hget : (chainItems chain)[i]? = some (chainItems chain)[i] := List.getElem?_eq_getElem hi
    rw [hget, Option.mem_toList, Option.bind_some] at ho
    have hsplit : chainItems chain =
        (chainItems chain).take i ++ (chainItems chain)[i] :: (chainItems chain).drop (i + 1) := by
      simp
    rcases h.exist _ _ _ o hsplit ho with ⟨out, hout⟩
    exact List.mem_map_of_mem hout
  · rintro ⟨hexist, honce⟩
    refine ⟨?_, honce⟩
    intro l item r o hsplit ho
    have hmem := hexist l.length (by simp [hsplit]) o (by simp [hsplit, ho])
    rw [hsplit, List.take_left, List.mem_map] at hmem
    rcases hmem with ⟨⟨o', out⟩, hout, rfl⟩
    exact ⟨out, hout⟩

instance : Decidable (Spendable B chain) := decidable_of_iff' _ spendable_iff

theorem ordinary_iff : Ordinary B chain ↔
    ((chain.flatMap Block.txdata).map B.computeTxid).Nodup ∧
    (∀ block ∈ chain, ∀ tx ∈ block.txdata, tx.output.length < 2 ^ 32) ∧
    ∀ i < (chainItems chain).length + 1, total (unspent B ((chainItems chain).take i)) < 2 ^ 64 := by
  constructor
  · intro h
    exact ⟨h.distinct, h.outputs, fun i _ => h.amounts _ _ (List.take_append_drop i _).symm⟩
  · rintro ⟨hdistinct, houtputs, hamounts⟩
    refine ⟨hdistinct, houtputs, ?_⟩
    intro l r hsplit
    have hfits := hamounts l.length (by rw [hsplit, List.length_append]; omega)
    rwa [hsplit, List.take_left] at hfits

instance : Decidable (Ordinary B chain) := decidable_of_iff' _ ordinary_iff

end Decidable

/-! ## Runs -/

/-- Where each script becomes tracked, as items are looked at after the first `n`: a script that is
not tracked before a look counts from the next item on. -/
def stamps (s : AddressCacheInner) (since : Hash256 → Nat) (n : Nat) : List Item → Hash256 → Nat
  | [] => since
  | item :: items =>
    match look B M s item with
    | .ok s' => stamps s' (restamp s since (n + 1)) (n + 1) items
    | .error _ => since

/-- A wallet opened on an empty database, after tracking addresses and descriptors, processing the
blocks `start` to `stop - 1` of the chain in order, and caching unconfirmed transactions.  `since h`
is the number of items that had been looked at when `h` became tracked, and for a script that is not
tracked, the number of all of them. -/
inductive Watched (U : List Transaction) (chain : List Block) (start : Nat) :
    AddressCacheInner → Nat → (Hash256 → Nat) → Prop
  | new {s : AddressCacheInner} (h : AddressCacheInner.new B M KvDatabase.empty = .ok s) :
      Watched U chain start s start fun _ => 0
  | address {s : AddressCacheInner} {stop : Nat} {since : Hash256 → Nat}
      (h : Watched U chain start s stop since) (script : Script) :
      Watched U chain start (s.cacheAddress B script) stop since
  | descriptor {s : AddressCacheInner} {stop : Nat} {since : Hash256 → Nat}
      (h : Watched U chain start s stop since) (descriptor : String) :
      Watched U chain start (pushDescriptor B M descriptor s).2 stop since
  | block {s s' : AddressCacheInner} {stop : Nat} {since : Hash256 → Nat}
      (h : Watched U chain start s stop since) {block : Block}
      {found : List (Transaction × TxOut)} (hblock : chain[stop]? = some block)
      (hprocess : s.blockProcess B M block stop = .ok (s', found)) :
      Watched U chain start s' (stop + 1)
        (stamps B M s since (itemsBetween chain start stop).length (blockItems block stop))
  | mempool {s s' : AddressCacheInner} {stop : Nat} {since : Hash256 → Nat}
      (h : Watched U chain start s stop since) {tx : Transaction} {coins : List TxOut} (htx : tx ∈ U)
      (hcache : s.cacheMempoolTransaction B M tx = .ok (s', coins)) :
      Watched U chain start s' stop since

/-- The wallets of these runs. -/
def Reached (U : List Transaction) (chain : List Block) (start : Nat) (s : AddressCacheInner)
    (stop : Nat) : Prop := ∃ since, Watched B M U chain start s stop since

section Runs

variable {B M} {U : List Transaction} {chain : List Block} {start stop : Nat}
  {s s' : AddressCacheInner} {items : List Item} {since : Hash256 → Nat}

def emptyCache : AddressCacheInner where
  database := KvDatabase.empty.saveStats ⟨0⟩
  addressMap := ∅
  scriptSet := ∅
  utxoIndex := ∅
  derivedIndex := ∅

theorem new_empty : AddressCacheInner.new B M KvDatabase.empty = .ok emptyCache := rfl

theorem books_empty : Books B U [] 0 (fun _ => 0) emptyCache := by
  refine ⟨⟨⟨rfl, ?_, ?_, ?_, ?_⟩, ?_, ?_, ?_⟩, fun _ => Nat.le_refl 0, fun _ _ => rfl, ?_, ?_⟩
  all_goals simp [emptyCache, KvDatabase.empty, KvDatabase.saveStats, paid, Finmap.notMem_empty]

/-- Items that may come one after the other are looked at without a panic, and the books stay
right. -/
theorem Books.scan (hU : B.TxidInjectiveOn U) (h : Books B U items items.length since s)
    {more : List Item}
    (hnext : ∀ l item r, items ++ more = l ++ item :: r → Next B U l item) :
    Ensures (scan B M s more) fun s' => Books B U (items ++ more) (items ++ more).length
      (stamps B M s since items.length more) s' := by
  induction more generalizing s items since with
  | nil => exact ⟨s, rfl, by simpa [stamps] using h⟩
  | cons item more ih =>
    rcases h.look hU (M := M) (hnext items item more rfl) with ⟨s1, hlook, hs1⟩
    rcases ih hs1 (by simpa using hnext) with ⟨s', hscan, hs'⟩
    refine ⟨s', ?_, ?_⟩
    · rw [Wallet.scan, List.foldlM_cons, hlook]
      exact hscan
    · rw [stamps, hlook]
      simpa using hs'

theorem scan_of_blockProcess {block : Block} {height : Nat} {found : List (Transaction × TxOut)}
    (h : s.blockProcess B M block height = .ok (s', found)) :
    scan B M s (blockItems block height) = .ok s' := by
  have hscan := blockProcess_scan (B := B) (M := M) s block height
  rw [h] at hscan
  exact hscan.symm

theorem Watched.start_le (h : Watched B M U chain start s stop since) : start ≤ stop := by
  induction h with
  | new h => exact Nat.le_refl _
  | address h script ih => exact ih
  | descriptor h descriptor ih => exact ih
  | block h hblock hprocess ih => exact Nat.le_succ_of_le ih
  | mempool h htx hcache ih => exact ih

theorem Books.block (hU : B.TxidInjectiveOn U)
    (hchain : ∀ block ∈ chain, ∀ tx ∈ block.txdata, tx ∈ U) (hspend : Spendable B chain)
    (hordinary : Ordinary B chain) (hstart : 1 ≤ start) (hle : start ≤ stop)
    (h : Books B U (itemsBetween chain start stop) (itemsBetween chain start stop).length since s)
    {block : Block} (hblock : chain[stop]? = some block) :
    Ensures (Wallet.scan B M s (blockItems block stop)) fun s' =>
      Books B U (itemsBetween chain start (stop + 1)) (itemsBetween chain start (stop + 1)).length
        (stamps B M s since (itemsBetween chain start stop).length (blockItems block stop)) s' := by
  rw [itemsBetween_succ hblock hle]
  refine h.scan hU fun l item r hsplit => ?_
  rw [← itemsBetween_succ hblock hle] at hsplit
  exact next_of_chain hU hchain hspend hordinary hstart (Nat.le_succ_of_le hle) hsplit

theorem Watched.books (hU : B.TxidInjectiveOn U)
    (hchain : ∀ block ∈ chain, ∀ tx ∈ block.txdata, tx ∈ U) (hspend : Spendable B chain)
    (hordinary : Ordinary B chain) (hstart : 1 ≤ start)
    (h : Watched B M U chain start s stop since) :
    Books B U (itemsBetween chain start stop) (itemsBetween chain start stop).length since s := by
  induction h with
  | new h =>
    cases new_empty.symm.trans h
    have hnil : itemsBetween chain start start = [] := by
      unfold itemsBetween
      rw [List.drop_eq_nil_of_le (List.length_take_le _ _)]
      rfl
    rw [hnil]
    exact books_empty
  | address h script ih => exact (Books.stable (Nat.le_refl _)).cacheAddress _ script ih
  | descriptor h descriptor ih =>
    refine (Books.stable (Nat.le_refl _)).pushDescriptor ?_ descriptor _ ih
    intro s d hs
    have hc := hs.consistent
    exact ⟨⟨{ hc with }, hc.records, hc.recorded,
      hc.balance⟩, hs.bound, hs.untracked, hs.coins, hs.exact⟩
  | block h hblock hprocess ih =>
    exact (ih.block hU hchain hspend hordinary hstart h.start_le hblock).of_ok
      (scan_of_blockProcess hprocess)
  | mempool h htx hcache ih =>
    exact ((Books.mempool (Nat.le_refl _) htx).cacheMempoolTransaction hU ih).of_ok hcache

theorem blockProcess_of_scan {block : Block} {height : Nat}
    (h : scan B M s (blockItems block height) = .ok s') :
    ∃ found, s.blockProcess B M block height = .ok (s', found) := by
  have hscan := blockProcess_scan (B := B) (M := M) s block height
  rw [h] at hscan
  cases hprocess : s.blockProcess B M block height with
  | error e =>
    rw [hprocess] at hscan
    cases hscan
  | ok r =>
    rw [hprocess] at hscan
    cases hscan
    exact ⟨r.2, rfl⟩

end Runs

/-! ## The ledger -/

section Main

variable {B M} {U : List Transaction} {chain : List Block} {start stop : Nat}
  {s : AddressCacheInner} {since : Hash256 → Nat}

/-- The wallet's ledger over a chain whose spent outputs exist and are spent once.  Nothing panics;
every tracked script lists, without repetition, the outputs that pay it among those looked at since
it became tracked in this run and that no processed block spends; its balance is what they are
worth; and the index holds all of them under their owners. -/
theorem wallet_ledger (hU : B.TxidInjectiveOn U)
    (hchain : ∀ block ∈ chain, ∀ tx ∈ block.txdata, tx ∈ U) (hspend : Spendable B chain)
    (hordinary : Ordinary B chain) (hstart : 1 ≤ start)
    (h : Watched B M U chain start s stop since) :
    (∀ block, chain[stop]? = some block →
      ∃ s' found, s.blockProcess B M block stop = .ok (s', found)) ∧
    (∀ tx ∈ U, ∃ s' coins, s.cacheMempoolTransaction B M tx = .ok (s', coins)) ∧
    (∀ hash, hash ∈ s.scriptSet ↔ hash ∈ s.addressMap) ∧
    (∀ hash a, s.addressMap.lookup hash = some a → a.utxos.Nodup ∧
      (∀ o, o ∈ a.utxos ↔
        (∃ out, (o, out) ∈ paid B ((itemsBetween chain start stop).drop (since hash)) ∧
          getSpkHash B out.scriptPubkey = hash) ∧
        o ∉ spent (itemsBetween chain start stop)) ∧
      a.balance = (a.utxos.map (worth B U)).sum) ∧
    ∀ o hash, s.utxoIndex.lookup o = some hash ↔
      ∃ a, s.addressMap.lookup hash = some a ∧ o ∈ a.utxos := by
  have hbooks := h.books hU hchain hspend hordinary hstart
  have hc := hbooks.consistent
  refine ⟨?_, ?_, hc.tracked, ?_, hc.index⟩
  · intro block hblock
    rcases hbooks.block (M := M) hU hchain hspend hordinary hstart h.start_le hblock with
      ⟨s', hscan, -⟩
    rcases blockProcess_of_scan hscan with ⟨found, hprocess⟩
    exact ⟨s', found, hprocess⟩
  · intro tx htx
    rcases (Books.mempool (Nat.le_refl _) htx).cacheMempoolTransaction hU hbooks with ⟨r, hr, -⟩
    exact ⟨r.1, r.2, hr⟩
  · intro hash a ha
    exact ⟨hc.nodup hash a ha, hbooks.exact hash a ha, hc.balance hash a ha⟩

end Main

namespace Sample

/-- Descriptors with one path, whose script at an index is the index itself. -/
def miniscript : Miniscript where
  Descriptor := Unit
  hasWildcard _ := .ok true
  parseAndSplit _ := .ok [()]
  scriptAt _ index := .ok [UInt8.ofNat index]

def output (value script : Nat) : TxOut := ⟨Amount.fromSat value, [UInt8.ofNat script]⟩

def coinbase (tag : UInt32) (outs : List TxOut) : Transaction where
  version := 1
  lockTime := .blocks 0
  input := [⟨OutPoint.null, [], tag, []⟩]
  output := outs

def spending (tx : Transaction) (outs : List TxOut) : Transaction where
  version := 1
  lockTime := .blocks 0
  input := [⟨outPoint Bitcoin.sample tx 0, [], 0, []⟩]
  output := outs

def block (txs : List Transaction) : Block where
  header := ⟨1, 0, 0, 0, 0, 0⟩
  txdata := txs

def genesis : Block := block [coinbase 0 [output 50 1]]

def funding : Block := block [coinbase 1 [output 50 7]]

def change : Transaction := spending (coinbase 1 [output 50 7]) [output 20 7, output 30 9]

def chain : List Block := [genesis, funding, block [coinbase 2 [output 50 1], change]]

/-- One coinbase pays script 150, then script 85, then script 150 again. -/
def midBlock : List Block := [genesis, block [coinbase 1 [output 5 150, output 6 85, output 7 150]]]

/-- Two blocks with the same coinbase. -/
def twins : List Block := [genesis, funding, funding]

def wallet : AddressCacheInner := (pushDescriptor Bitcoin.sample miniscript "wpkh" emptyCache).2

def emptying : Block :=
  block [coinbase 2 [output 50 1], spending (coinbase 1 [output 50 7]) [output 30 9]]

def single : AddressCacheInner := emptyCache.cacheAddress Bitcoin.sample [7]

end Sample

open Sample Bitcoin in
/-- Script 7 is paid, the payment is spent in part, first unconfirmed and then in a block, and the
change is listed. -/
theorem wallet_ledger_sample : Spendable sample chain ∧ Ordinary sample chain ∧
    ∃ s since a, Watched sample miniscript (chain.flatMap Block.txdata) chain 1 s 3 since ∧
      s.addressMap.lookup (getSpkHash sample [7]) = some a ∧
      a.utxos = [outPoint sample change 0] ∧ a.balance = 20 := by
  have hspend : Spendable sample chain := by decide +kernel
  have hordinary : Ordinary sample chain := by decide +kernel
  have hU : sample.TxidInjectiveOn (chain.flatMap Block.txdata) := by
    unfold Bitcoin.TxidInjectiveOn
    decide +kernel
  refine ⟨hspend, hordinary, ?_⟩
  have hrun : ((single.blockProcess sample miniscript funding 1).toOption.any fun r1 =>
      (r1.1.cacheMempoolTransaction sample miniscript change).toOption.any fun r2 =>
        (r2.1.blockProcess sample miniscript (block [coinbase 2 [output 50 1], change]) 2).toOption.any
          fun r3 => (r3.1.addressMap.lookup (getSpkHash sample [7])).any fun a =>
            decide (a.utxos = [outPoint sample change 0])) = true := by
    decide +kernel
  rcases exists_of_any hrun with ⟨⟨s1, found1⟩, hs1, hrun⟩
  rcases exists_of_any hrun with ⟨⟨s2, coins⟩, hs2, hrun⟩
  rcases exists_of_any hrun with ⟨⟨s3, found3⟩, hs3, hrun⟩
  rcases (Option.any_eq_true _ _).mp hrun with ⟨a, ha, hcheck⟩
  have hutxos := of_decide_eq_true hcheck
  have hnew : Watched sample miniscript (chain.flatMap Block.txdata) chain 1 emptyCache 1
    fun _ => 0 := .new new_empty
  have hwatched := (((hnew.address [7]).block rfl hs1).mempool (by decide +kernel) hs2).block rfl hs3
  have hledger := wallet_ledger hU (fun block hblock tx htx => List.mem_flatMap.mpr ⟨block, hblock, htx⟩)
    hspend hordinary (Nat.le_refl 1) hwatched
  refine ⟨s3, _, a, hwatched, ha, hutxos, ?_⟩
  rw [(hledger.2.2.2.1 _ a ha).2.2, hutxos]
  decide +kernel

open Sample Bitcoin in
/-- No reading by whole blocks fits a script derived in the middle of a block: some of the outputs
that pay it in that block are listed, others are not.  And an output that is created twice is listed
twice. -/
theorem wallet_ledger_not_by_blocks :
    (Spendable sample midBlock ∧ ∃ s₀ s a,
      Reached sample miniscript [] midBlock 1 s₀ 1 ∧
      Reached sample miniscript [] midBlock 1 s 2 ∧
      getSpkHash sample [150] ∉ s₀.scriptSet ∧
      s.addressMap.lookup (getSpkHash sample [150]) = some a ∧ a.utxos ≠ [] ∧
      ∃ o out, (o, out) ∈ paid sample (itemsBetween midBlock 1 2) ∧
        out.scriptPubkey = [150] ∧ o ∉ spent (itemsBetween midBlock 1 2) ∧ o ∉ a.utxos) ∧
    (Spendable sample twins ∧ ∃ s a,
      Reached sample miniscript [] twins 1 s 3 ∧
      s.addressMap.lookup (getSpkHash sample [7]) = some a ∧ ¬ a.utxos.Nodup) := by
  constructor
  · refine ⟨by decide +kernel, ?_⟩
    have hrun : ((wallet.blockProcess sample miniscript
        (block [coinbase 1 [output 5 150, output 6 85, output 7 150]]) 1).toOption.any fun r =>
          (r.1.addressMap.lookup (getSpkHash sample [150])).any fun a =>
            decide (a.utxos = [outPoint sample
              (coinbase 1 [output 5 150, output 6 85, output 7 150]) 2])) = true := by
      decide +kernel
    rcases exists_of_any hrun with ⟨⟨s, found⟩, hs, hcheck⟩
    rcases (Option.any_eq_true _ _).mp hcheck with ⟨a, ha, hutxos⟩
    have hutxos' := of_decide_eq_true hutxos
    have hnew : Watched sample miniscript [] midBlock 1 emptyCache 1 fun _ => 0 := .new new_empty
    have h0 : Watched sample miniscript [] midBlock 1 wallet 1 fun _ => 0 := hnew.descriptor "wpkh"
    refine ⟨wallet, s, a, ⟨_, h0⟩, ⟨_, h0.block rfl hs⟩, by decide +kernel, ha, by simp [hutxos'], ?_⟩
    refine ⟨outPoint sample (coinbase 1 [output 5 150, output 6 85, output 7 150]) 0,
      output 5 150, by decide +kernel, rfl, by decide +kernel, ?_⟩
    rw [hutxos']
    decide +kernel
  · refine ⟨by decide +kernel, ?_⟩
    have hrun : ((single.blockProcess sample miniscript funding 1).toOption.any fun r =>
        (r.1.blockProcess sample miniscript funding 2).toOption.any fun r =>
          (r.1.addressMap.lookup (getSpkHash sample [7])).any fun a =>
            decide (¬ a.utxos.Nodup)) = true := by
      decide +kernel
    rcases exists_of_any hrun with ⟨⟨s1, found1⟩, hs1, hrun⟩
    rcases exists_of_any hrun with ⟨⟨s2, found2⟩, hs2, hcheck⟩
    rcases (Option.any_eq_true _ _).mp hcheck with ⟨a, ha, hdup⟩
    have hnew : Watched sample miniscript [] twins 1 emptyCache 1 fun _ => 0 := .new new_empty
    exact ⟨s2, a, ⟨_, ((hnew.address [7]).block rfl hs1).block rfl hs2⟩, ha, of_decide_eq_true hdup⟩

end Floresta.Wallet
