import Floresta.Wallet.AddressCache

/-!
# Scan — a block as the list of what is looked at

The nested loops of `block_process` look at the inputs and outputs of a block one after the other.
`look` is one such look, and a block is the list of its items: processing the block is looking at
them in order (`blockProcess_scan`).  Deriving addresses in the middle of a block only ever adds
addresses; what that keeps is said once, by `Stable`.
-/

namespace Floresta.Wallet

open Fallible AddressCacheInner

variable (B : Bitcoin) (M : Miniscript) {hash : Hash256} {proof : MerkleProof} {item : Item}
  {position index : Nat} {out : TxOut} {height value : Nat}
variable {s s' : AddressCacheInner} {txin : TxIn} {vin vout : Nat} {isSpend : Bool}

/-! ## Items -/

/-- An input or an output, with its transaction and where that stands. -/
inductive Item
  | input (place : Place) (tx : Transaction) (txin : TxIn) (vin : Nat)
  | output (place : Place) (tx : Transaction) (out : TxOut) (vout : Nat)

namespace Item

def place : Item → Place
  | input place _ _ _ => place
  | output place _ _ _ => place

def tx : Item → Transaction
  | input _ tx _ _ => tx
  | output _ tx _ _ => tx

def spends : Item → Option OutPoint
  | input _ _ txin _ => some txin.previousOutput
  | output _ _ _ _ => none

def pays : Item → Option (OutPoint × TxOut)
  | input _ _ _ _ => none
  | output _ tx out vout => some (outPoint B tx vout, out)

/-- The item is where it says it is. -/
def Placed : Item → Prop
  | input place tx txin vin =>
    place.block.txdata[place.position]? = some tx ∧ tx.input[vin]? = some txin
  | output place tx out vout =>
    place.block.txdata[place.position]? = some tx ∧ tx.output[vout]? = some out

theorem Placed.block (h : item.Placed) :
    item.place.block.txdata[item.place.position]? = some item.tx := by
  cases item with
  | input place tx txin vin => exact h.1
  | output place tx out vout => exact h.1

theorem Placed.mem (h : item.Placed) : item.tx ∈ item.place.block.txdata :=
  List.mem_of_getElem? h.block

end Item

def txItems (place : Place) (tx : Transaction) : List Item :=
  tx.input.zipIdx.map (fun i => .input place tx i.1 i.2) ++
    tx.output.zipIdx.map fun o => .output place tx o.1 o.2

def blockItems (block : Block) (height : Nat) : List Item :=
  block.txdata.zipIdx.flatMap fun t => txItems ⟨block, height, t.2⟩ t.1

theorem blockItems_placed {block : Block} {height : Nat}
    (h : item ∈ blockItems block height) :
    item.Placed ∧ item.place.height = height ∧ item.place.block = block := by
  rw [blockItems, List.mem_flatMap] at h
  rcases h with ⟨⟨tx, position⟩, htx, h⟩
  have hblock : block.txdata[position]? = some tx := by
    simpa using List.mem_zipIdx_iff_getElem?.mp htx
  rw [txItems, List.mem_append] at h
  rcases h with h | h
  · rcases List.mem_map.mp h with ⟨⟨txin, vin⟩, hin, rfl⟩
    exact ⟨⟨hblock, by simpa using List.mem_zipIdx_iff_getElem?.mp hin⟩, rfl, rfl⟩
  · rcases List.mem_map.mp h with ⟨⟨out, vout⟩, hout, rfl⟩
    exact ⟨⟨hblock, by simpa using List.mem_zipIdx_iff_getElem?.mp hout⟩, rfl, rfl⟩

/-! ## Looking at items -/

def look (s : AddressCacheInner) : Item → Except Panic AddressCacheInner
  | .input place tx txin vin => processInput B M place tx s (txin, vin)
  | .output place tx out vout => processOutput B M place tx s (out, vout)

def scan (s : AddressCacheInner) (items : List Item) : Except Panic AddressCacheInner :=
  items.foldlM (look B M) s

section Scan

variable {B M}

theorem look_input_none {place : Place} {tx : Transaction}
    (h : s.utxoIndex.lookup txin.previousOutput = none) :
    look B M s (.input place tx txin vin) = .ok s := by
  simp only [look, processInput, h]

theorem look_input_some {place : Place} {tx : Transaction}
    {a : CachedAddress} {ct : CachedTransaction}
    (h : s.utxoIndex.lookup txin.previousOutput = some hash)
    (ha : s.addressMap.lookup hash = some a)
    (hct : s.getTransaction txin.previousOutput.txid = some ct)
    (hout : ct.tx.output[txin.previousOutput.vout.toNat]? = some out)
    (hproof : MerkleProof.fromBlock B place.block place.position = .ok proof) :
    look B M s (.input place tx txin vin) =
      s.cacheTransaction B M tx place.height out.value.sat proof place.position vin true
        a.scriptHash := by
  unfold look processInput
  dsimp only
  rw [h]
  dsimp only
  rw [ha, hct, hproof]
  dsimp only [okOr, Bind.bind, Except.bind]
  rw [hout]

theorem look_output_untracked {place : Place} {tx : Transaction}
    (h : getSpkHash B out.scriptPubkey ∉ s.scriptSet) :
    look B M s (.output place tx out vout) = .ok s := by
  simp only [look, processOutput, if_neg h]

theorem look_output_tracked {place : Place} {tx : Transaction}
    (h : getSpkHash B out.scriptPubkey ∈ s.scriptSet)
    (hproof : MerkleProof.fromBlock B place.block place.position = .ok proof) :
    look B M s (.output place tx out vout) =
      s.cacheTransaction B M tx place.height out.value.sat proof place.position vout false
        (getSpkHash B out.scriptPubkey) := by
  simp only [look, processOutput, if_pos h, hproof]
  rfl

theorem scan_append (s : AddressCacheInner) (l r : List Item) :
    scan B M s (l ++ r) = scan B M s l >>= fun s => scan B M s r := by
  exact List.foldlM_append

theorem foldlM_map_fst {α β σ ε : Type} {f : σ × β → α → Except ε (σ × β)}
    {g : σ → α → Except ε σ} (h : ∀ st x, (f st x).map Prod.fst = g st.1 x) (xs : List α)
    (st : σ × β) : (xs.foldlM f st).map Prod.fst = xs.foldlM g st.1 := by
  induction xs generalizing st with
  | nil => rfl
  | cons x xs ih =>
    rw [List.foldlM_cons, List.foldlM_cons, ← h st x]
    cases f st x with
    | error e => rfl
    | ok st' => exact ih st'

theorem collectOutput_fst (place : Place) (tx : Transaction)
    (st : AddressCacheInner × List (Transaction × TxOut)) (output : TxOut × Nat) :
    (collectOutput B M place tx st output).map Prod.fst = processOutput B M place tx st.1 output := by
  unfold collectOutput
  cases processOutput B M place tx st.1 output with
  | error e => rfl
  | ok s =>
    change Except.map Prod.fst (if _ then _ else _) = _
    split <;> rfl

theorem scan_inputs (place : Place) (tx : Transaction) (s : AddressCacheInner) :
    scan B M s (tx.input.zipIdx.map fun i => .input place tx i.1 i.2) =
      tx.input.zipIdx.foldlM (processInput B M place tx) s :=
  List.foldlM_map

theorem scan_outputs (place : Place) (tx : Transaction) (s : AddressCacheInner) :
    scan B M s (tx.output.zipIdx.map fun o => .output place tx o.1 o.2) =
      tx.output.zipIdx.foldlM (processOutput B M place tx) s :=
  List.foldlM_map

theorem processTransaction_fst (block : Block) (height : Nat)
    (st : AddressCacheInner × List (Transaction × TxOut)) (t : Transaction × Nat) :
    (processTransaction B M block height st t).map Prod.fst =
      scan B M st.1 (txItems ⟨block, height, t.2⟩ t.1) := by
  rw [txItems, scan_append, scan_inputs]
  unfold processTransaction
  dsimp only
  cases t.1.input.zipIdx.foldlM (processInput B M ⟨block, height, t.2⟩ t.1) st.1 with
  | error e => rfl
  | ok s =>
    refine Eq.trans ?_ (scan_outputs _ _ s).symm
    exact foldlM_map_fst (fun st o => collectOutput_fst _ _ st o) _ (s, st.2)

theorem blockProcess_scan (s : AddressCacheInner) (block : Block) (height : Nat) :
    (blockProcess B M s block height).map Prod.fst = scan B M s (blockItems block height) := by
  have hfst := foldlM_map_fst
    (g := fun s (t : Transaction × Nat) => scan B M s (txItems ⟨block, height, t.2⟩ t.1))
    (processTransaction_fst (B := B) (M := M) block height) block.txdata.zipIdx (s, [])
  rw [blockProcess, hfst, blockItems]
  clear hfst
  dsimp only
  induction block.txdata.zipIdx generalizing s with
  | nil => rfl
  | cons t rest ih =>
    rw [List.foldlM_cons, List.flatMap_cons, scan_append]
    refine congrArg (scan B M s (txItems ⟨block, height, t.2⟩ t.1) >>= ·) ?_
    funext s'
    exact ih s'

end Scan

/-! ## What is found in a block -/

/-- The payment that an item is, if its script is tracked. -/
def Item.finds (s : AddressCacheInner) : Item → List (Transaction × TxOut)
  | .input _ _ _ _ => []
  | .output _ tx out _ =>
    if getSpkHash B out.scriptPubkey ∈ s.scriptSet then [(tx, out)] else []

/-- A look that adds to the payments found so far. -/
def gather (st : AddressCacheInner × List (Transaction × TxOut)) (item : Item) :
    Except Panic (AddressCacheInner × List (Transaction × TxOut)) := do
  let s ← look B M st.1 item
  pure (s, st.2 ++ item.finds B st.1)

section Gather

variable {B M}

theorem gather_inputs (place : Place) (tx : Transaction) (inputs : List (TxIn × Nat))
    (st : AddressCacheInner × List (Transaction × TxOut)) :
    (inputs.map fun i => Item.input place tx i.1 i.2).foldlM (gather B M) st =
      inputs.foldlM (processInput B M place tx) st.1 >>= fun s => pure (s, st.2) := by
  induction inputs generalizing st with
  | nil => rfl
  | cons i inputs ih =>
    rw [List.map_cons, List.foldlM_cons, List.foldlM_cons]
    change (processInput B M place tx st.1 i >>= fun s => pure (s, st.2 ++ [])) >>= _ = _
    cases processInput B M place tx st.1 i with
    | error e => rfl
    | ok s => exact (ih (s, st.2 ++ [])).trans (by rw [List.append_nil]; rfl)

theorem gather_output (place : Place) (tx : Transaction) (o : TxOut × Nat)
    (st : AddressCacheInner × List (Transaction × TxOut)) :
    gather B M st (.output place tx o.1 o.2) = collectOutput B M place tx st o := by
  unfold gather collectOutput
  refine congrArg (processOutput B M place tx st.1 o >>= ·) (funext fun s => ?_)
  dsimp only [Item.finds]
  split
  · rfl
  · rw [List.append_nil]

theorem gather_txItems (block : Block) (height : Nat) (t : Transaction × Nat)
    (st : AddressCacheInner × List (Transaction × TxOut)) :
    (txItems ⟨block, height, t.2⟩ t.1).foldlM (gather B M) st =
      processTransaction B M block height st t := by
  rw [txItems, List.foldlM_append, gather_inputs]
  unfold processTransaction
  dsimp only
  cases t.1.input.zipIdx.foldlM (processInput B M ⟨block, height, t.2⟩ t.1) st.1 with
  | error e => rfl
  | ok s =>
    change List.foldlM (gather B M) (s, st.2) _ = List.foldlM _ (s, st.2) _
    rw [List.foldlM_map]
    exact congrArg (List.foldlM · (s, st.2) t.1.output.zipIdx)
      (funext fun st => funext fun o => gather_output _ _ o st)

theorem blockProcess_gather (s : AddressCacheInner) (block : Block) (height : Nat) :
    blockProcess B M s block height = (blockItems block height).foldlM (gather B M) (s, []) := by
  rw [blockProcess, blockItems]
  generalize ([] : List (Transaction × TxOut)) = found
  induction block.txdata.zipIdx generalizing s found with
  | nil => rfl
  | cons t rest ih =>
    rw [List.foldlM_cons, List.flatMap_cons, List.foldlM_append, gather_txItems]
    refine congrArg (processTransaction B M block height (s, found) t >>= ·) ?_
    funext st
    exact ih st.1 st.2

end Gather

/-! ## What deriving addresses keeps -/

/-- A property that tracking one more address keeps, and that does not look at derivation
indexes. -/
structure Tracking (P : AddressCacheInner → Prop) : Prop where
  cacheAddress : ∀ s script, P s → P (s.cacheAddress B script)
  derivedIndex : ∀ s index, P s → P { s with derivedIndex := index }

/-- A property that does not look at the stats either. -/
structure Stable (P : AddressCacheInner → Prop) : Prop extends Tracking B P where
  saveStats : ∀ s stats, P s → P { s with database := s.database.saveStats stats }

namespace Tracking

variable {B M} {P : AddressCacheInner → Prop}

theorem deriveDescriptor (hP : Tracking B P) (start count : Nat) (derived : List Script)
    (descriptor : String) : Prog.Stays P (deriveDescriptor B M start count derived descriptor) := by
  refine Prog.Stays.bind (Prog.Stays.lift _) fun wildcard => ?_
  refine Prog.Stays.ite ?_ ?_
  · refine Prog.Stays.bind (Prog.Stays.lift _) fun scripts => ?_
    refine Prog.Stays.bind (Prog.Stays.forM _ fun c => ?_) fun _ => Prog.Stays.pure _
    exact Prog.Stays.bind (Prog.Stays.modify fun s hs => hP.derivedIndex s _ hs) fun _ =>
      Prog.Stays.modify fun s hs => hP.cacheAddress s c.1 hs
  · refine Prog.Stays.bind (Prog.Stays.lift _) fun scripts => ?_
    refine Prog.Stays.bind (Prog.Stays.forM _ fun c => ?_) fun _ => Prog.Stays.pure _
    exact Prog.Stays.modify fun s hs => hP.cacheAddress s c hs

theorem deriveRange (hP : Tracking B P) (descriptors : List String) (start count : Nat) :
    Prog.Stays P (deriveRange B M descriptors start count) :=
  Prog.Stays.foldlM (fun derived descriptor => hP.deriveDescriptor start count derived descriptor)
    _ _

theorem deriveRangeOrFail (hP : Tracking B P) (descriptors : List String) (start count : Nat) :
    Prog.Stays P (deriveRangeOrFail B M descriptors start count) := fun s hs =>
  hP.deriveRange descriptors start count s hs

end Tracking

namespace Stable

variable {B M} {P : AddressCacheInner → Prop}

theorem getStats : Prog.Stays P getStats :=
  Prog.Stays.bind (Prog.Stays.read _) fun _ => Prog.Stays.lift _

theorem deriveAddresses (hP : Stable B P) : Prog.Stays P (deriveAddresses B M) := by
  refine Prog.Stays.bind getStats fun stats => ?_
  refine Prog.Stays.bind (Prog.Stays.read _) fun descriptors => ?_
  refine Prog.Stays.bind (hP.deriveRangeOrFail _ _ _) fun _ => ?_
  exact Prog.Stays.modify fun s hs => hP.saveStats s _ hs

/-- A payment to an address may derive others, which keeps what is stable. -/
theorem maybeDeriveAddresses (hP : Stable B P)
    (hs : P s) (h : s.maybeDeriveAddresses B M hash = .ok s') : P s' := by
  unfold AddressCacheInner.maybeDeriveAddresses at h
  split at h
  · cases h
    exact hs
  · rcases bind_eq_ok.mp h with ⟨stats, -, h⟩
    split at h
    · cases h
      exact hP.deriveAddresses s hs
    · cases h
      exact hs

theorem maybeDeriveAddresses_ensures (hP : Stable B P)
    (hstats : s.database.stats.isSome) (hs : P s) :
    Ensures (s.maybeDeriveAddresses B M hash) P := by
  obtain ⟨stats, hstats⟩ := Option.isSome_iff_exists.mp hstats
  have hok : ∃ s', s.maybeDeriveAddresses B M hash = .ok s' := by
    unfold AddressCacheInner.maybeDeriveAddresses
    split
    · exact ⟨s, rfl⟩
    · rw [hstats]
      simp only [okOr]
      exact ⟨_, (apply_ite Except.ok _ _ _).symm⟩
  rcases hok with ⟨s', hok⟩
  exact ⟨s', hok, hP.maybeDeriveAddresses hs hok⟩

theorem and {Q : AddressCacheInner → Prop} (hP : Stable B P) (hQ : Stable B Q) :
    Stable B fun s => P s ∧ Q s where
  cacheAddress s script h := ⟨hP.cacheAddress s script h.1, hQ.cacheAddress s script h.2⟩
  derivedIndex s index h := ⟨hP.derivedIndex s index h.1, hQ.derivedIndex s index h.2⟩
  saveStats s stats h := ⟨hP.saveStats s stats h.1, hQ.saveStats s stats h.2⟩

theorem pushDescriptor (hP : Stable B P)
    (hdesc : ∀ s d, P s → P { s with database := s.database.saveDescriptor d })
    (descriptor : String) : Prog.Stays P (pushDescriptor B M descriptor) := by
  refine Prog.Stays.bind (Prog.Stays.read _) fun cached => Prog.Stays.ite (Prog.Stays.fail _) ?_
  refine Prog.Stays.bind getStats fun stats => ?_
  refine Prog.Stays.bind (hP.deriveRangeOrFail _ _ _) fun scripts => ?_
  refine Prog.Stays.bind (Prog.Stays.modify fun s hs => hdesc s descriptor hs) fun _ => ?_
  exact Prog.Stays.bind (Prog.Stays.modify fun s hs => hP.saveStats s _ hs) fun _ =>
    Prog.Stays.pure _

end Stable

/-- The second cache tracks at least what the first does, and the old addresses, the index and the
stored transactions are the same. -/
structure Grows (s s' : AddressCacheInner) : Prop where
  addressMap : ∀ h a, s.addressMap.lookup h = some a → s'.addressMap.lookup h = some a
  scriptSet : s.scriptSet ⊆ s'.scriptSet
  utxoIndex : s'.utxoIndex = s.utxoIndex
  transactions : s'.database.transactions = s.database.transactions

namespace Grows

variable {B} {s s' : AddressCacheInner}

theorem refl (s : AddressCacheInner) : Grows s s := ⟨fun _ _ h => h, Finset.Subset.refl _, rfl, rfl⟩

theorem cacheAddress (h : Grows s s') (script : Script) : Grows s (s'.cacheAddress B script) := by
  unfold AddressCacheInner.cacheAddress
  dsimp only
  split
  · exact h
  next hnew =>
  refine ⟨?_, ?_, h.utxoIndex, h.transactions⟩
  · intro h' a ha
    have ha' := h.addressMap h' a ha
    have hne : h' ≠ getSpkHash B script := by
      rintro rfl
      exact hnew (Finmap.mem_of_lookup_eq_some ha')
    exact (Finmap.lookup_insert_of_ne _ hne).trans ha'
  · exact h.scriptSet.trans (Finset.subset_insert _ _)

theorem stable (s : AddressCacheInner) : Stable B (Grows s) where
  cacheAddress _ script h := h.cacheAddress script
  derivedIndex _ _ h := { h with }
  saveStats _ _ h := { h with }

end Grows

/-! ## Caching a transaction -/

def saveTx (s : AddressCacheInner) (tx : Transaction) (value index : Nat) (isSpend : Bool)
    (hash : Hash256) (record : CachedTransaction) : Except Panic AddressCacheInner :=
  if 0 < record.height then s.saveNonMempoolTx B tx isSpend value index hash record
  else pure (s.saveMempoolTx hash record)

def stored (s : AddressCacheInner) (record : CachedTransaction) : AddressCacheInner :=
  { s with database := s.database.saveTransaction B record }

section CacheTransaction

variable {B M}

theorem cacheTransaction_eq {tx : Transaction} (h : hash ∈ s.addressMap) :
    s.cacheTransaction B M tx height value proof position index isSpend hash =
      ((stored B s (.record B tx height proof position)).maybeDeriveAddresses B M hash >>= fun s' =>
        saveTx B s' tx value index isSpend hash (.record B tx height proof position)) := by
  unfold cacheTransaction followAddress
  dsimp only
  rw [if_pos h]
  rfl

/-- A transaction of a tracked address is stored, then addresses may be derived, and then the
address is rewritten. -/
theorem cacheTransaction_ensures {tx : Transaction}
    {P Q : AddressCacheInner → Prop} (h : hash ∈ s.addressMap) (hstats : s.database.stats.isSome)
    (hP : Stable B P) (hs : P (stored B s (.record B tx height proof position)))
    (hnext : ∀ s', P s' → Grows (stored B s (.record B tx height proof position)) s' →
      Ensures (saveTx B s' tx value index isSpend hash (.record B tx height proof position)) Q) :
    Ensures (s.cacheTransaction B M tx height value proof position index isSpend hash) Q := by
  rw [cacheTransaction_eq h]
  refine Ensures.bind ((hP.and (Grows.stable _)).maybeDeriveAddresses_ensures hstats
    ⟨hs, Grows.refl _⟩) ?_
  intro s' hs'
  exact hnext s' hs'.1 hs'.2

theorem cacheTransaction_ok {tx : Transaction} (h : hash ∈ s.addressMap)
    (hok : s.cacheTransaction B M tx height value proof position index isSpend hash = .ok s') :
    ∃ t, (stored B s (.record B tx height proof position)).maybeDeriveAddresses B M hash = .ok t ∧
      Grows (stored B s (.record B tx height proof position)) t ∧
      saveTx B t tx value index isSpend hash (.record B tx height proof position) = .ok s' := by
  rw [cacheTransaction_eq h, bind_eq_ok] at hok
  rcases hok with ⟨t, hderive, hsave⟩
  exact ⟨t, hderive, (Grows.stable _).maybeDeriveAddresses (Grows.refl _) hderive, hsave⟩

end CacheTransaction

/-! ## Items that touch the wallet -/

/-- The address that an item concerns: the owner of the output it spends, or the tracked address it
pays. -/
def Item.touches (s : AddressCacheInner) : Item → Option Hash256
  | .input _ _ txin _ => s.utxoIndex.lookup txin.previousOutput
  | .output _ _ out _ =>
    if getSpkHash B out.scriptPubkey ∈ s.scriptSet then some (getSpkHash B out.scriptPubkey)
    else none

section Touches

variable {B M} {s s' : AddressCacheInner}

theorem Item.touches_output {place : Place} {tx : Transaction} :
    (Item.output place tx out vout).touches B s = some hash ↔
      getSpkHash B out.scriptPubkey ∈ s.scriptSet ∧ getSpkHash B out.scriptPubkey = hash := by
  simp [Item.touches]

theorem look_of_untouched (h : item.touches B s = none) :
    look B M s item = .ok s := by
  cases item with
  | input place tx txin vin => exact look_input_none h
  | output place tx out vout =>
    refine look_output_untracked fun hmem => ?_
    rw [Item.touches, if_pos hmem] at h
    cases h

theorem Item.finds_of_untouched (h : item.touches B s = none) :
    item.finds B s = [] := by
  cases item with
  | input place tx txin vin => rfl
  | output place tx out vout =>
    refine if_neg fun hmem => ?_
    rw [Item.touches, if_pos hmem] at h
    cases h

theorem Item.finds_touches (h : item.touches B s = some hash) :
    ∀ p ∈ item.finds B s, getSpkHash B p.2.scriptPubkey = hash := by
  cases item with
  | input place tx txin vin => exact fun p hp => absurd hp List.not_mem_nil
  | output place tx out vout =>
    rcases Item.touches_output.mp h with ⟨hmem, rfl⟩
    rw [Item.finds, if_pos hmem]
    intro p hp
    rw [List.mem_singleton.mp hp]

theorem look_input_ok {place : Place} {tx : Transaction}
    (h : s.utxoIndex.lookup txin.previousOutput = some hash)
    (hlook : look B M s (.input place tx txin vin) = .ok s') :
    ∃ a value proof, s.addressMap.lookup hash = some a ∧
      MerkleProof.fromBlock B place.block place.position = .ok proof ∧
      s.cacheTransaction B M tx place.height value proof place.position vin true a.scriptHash =
        .ok s' := by
  simp only [look, processInput, h, bind_eq_ok, okOr_eq_ok] at hlook
  rcases hlook with ⟨a, ha, ct, hct, out, hout, proof, hproof, hok⟩
  exact ⟨a, out.value.sat, proof, ha, hproof, hok⟩

theorem look_output_ok {place : Place} {tx : Transaction}
    (h : getSpkHash B out.scriptPubkey ∈ s.scriptSet)
    (hlook : look B M s (.output place tx out vout) = .ok s') :
    ∃ proof, MerkleProof.fromBlock B place.block place.position = .ok proof ∧
      s.cacheTransaction B M tx place.height out.value.sat proof place.position vout false
        (getSpkHash B out.scriptPubkey) = .ok s' := by
  simp only [look, processOutput, if_pos h, bind_eq_ok] at hlook
  exact hlook

/-- An invariant of the coins that were found and the cache, through both loops of the mempool.  The
outputs that are not among the coins were not tracked when their turn came. -/
theorem cacheMempoolTransaction_inv {I : List (Nat × TxOut) → AddressCacheInner → Prop}
    {tx : Transaction} {coins : List TxOut}
    (hone : ∀ found c t t', I found t → cacheUnconfirmed B M tx t c = .ok t' → I (found ++ [c]) t')
    (hs : I [] s) (hcache : s.cacheMempoolTransaction B M tx = .ok (s', coins)) :
    ∃ found, coins = found.map Prod.snd ∧ I found s' ∧ ∀ out ∈ tx.output, out ∈ coins ∨
      ∃ found t, I found t ∧ getSpkHash B out.scriptPubkey ∉ t.scriptSet := by
  simp only [cacheMempoolTransaction, bind_eq_ok, pure_eq_ok] at hcache
  rcases hcache with ⟨spends, -, s1, hspends, r, houts, hr⟩
  cases hr
  have hs1 : I spends s1 :=
    foldlM_inv (I := I) spends (fun done c _ t t' _ ht hok => hone done c t t' ht hok) hs hspends
  have hall := foldlM_inv
    (I := fun done (r : AddressCacheInner × List (Nat × TxOut)) => I r.2 r.1 ∧
      ∀ output ∈ done, output.1 ∈ r.2.map Prod.snd ∨
        ∃ found t, I found t ∧ getSpkHash B output.1.scriptPubkey ∉ t.scriptSet)
    tx.output.zipIdx (by
      intro done output _ st st' _ hst hok
      unfold cacheUnconfirmedOutput at hok
      split at hok
      next hmem =>
        rcases bind_eq_ok.mp hok with ⟨t, ht, hok⟩
        cases hok
        rw [List.map_append]
        refine ⟨hone _ _ _ _ hst.1 ht, forall_mem_snoc (fun output' houtput' => ?_) ?_⟩
        · exact (hst.2 output' houtput').imp_left (List.mem_append_left _)
        · exact .inl List.mem_concat_self
      next hmem =>
        cases hok
        exact ⟨hst.1, forall_mem_snoc hst.2 (.inr ⟨_, _, hst.1, hmem⟩)⟩)
    ⟨hs1, fun _ hmem => absurd hmem List.not_mem_nil⟩ houts
  refine ⟨r.2, rfl, hall.1, fun out hout => ?_⟩
  rcases List.mem_iff_getElem?.mp hout with ⟨vout, hvout⟩
  exact hall.2 (out, vout) (List.mem_zipIdx_iff_getElem?.mpr hvout)

/-- What caching an unconfirmed transaction on an address keeps, the mempool keeps. -/
theorem cacheMempoolTransaction_ok {P : AddressCacheInner → Prop} {tx : Transaction}
    {coins : List TxOut}
    (hP : ∀ s s' value index hash a, P s → s.addressMap.lookup hash = some a →
      s.cacheTransaction B M tx 0 value MerkleProof.default 0 index true a.scriptHash = .ok s' → P s')
    (hs : P s) (hcache : s.cacheMempoolTransaction B M tx = .ok (s', coins)) : P s' := by
  have hone : ∀ (_ : List (Nat × TxOut)) c t t', P t → cacheUnconfirmed B M tx t c = .ok t' →
      P t' := by
    intro _ c t t' ht hok
    simp only [cacheUnconfirmed, bind_eq_ok, okOr_eq_ok] at hok
    rcases hok with ⟨a, ha, hok⟩
    exact hP t t' _ _ _ a ht ha hok
  rcases cacheMempoolTransaction_inv (I := fun _ => P) hone hs hcache with ⟨-, -, hs', -⟩
  exact hs'

end Touches

end Floresta.Wallet
