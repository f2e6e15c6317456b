import Floresta.Wallet.Keys

/-!
# GapLimit — how far ahead of the payments the wallet watches

One horizon is shared by all the descriptors, and a payment close to it moves it.  The scripts of a
batch are numbered by their position modulo the size of the batch, and a wallet that is opened again
numbers all of them anew in one batch.  That the numbers are right needs no look at the order of the
batches: every entry that is ever written is true (`Watches`), and different scripts have different
hashes (`Distinct`), so an entry that is there is the right one.
-/

namespace Floresta.Wallet

open Fallible AddressCacheInner Ledger

variable (B : Bitcoin) (M : Miniscript) {tx : Transaction} {batch : List String}
variable {height index position : Nat} {script : Script} {hash : Hash256} {derived : List Script}
  {t : AddressCacheInner}

/-! ## Scripts of descriptors -/

/-- `hash` is that of the script of index `i` on a path of the descriptor. -/
structure Derives (descriptor : String) (wildcard : Bool) (path : M.Descriptor) (i : Nat)
    (hash : Hash256) : Prop where
  parsed : M.hasWildcard descriptor = .ok wildcard
  split : ∃ paths, M.parseAndSplit descriptor = .ok paths ∧ path ∈ paths
  script : ∃ script, M.scriptAt path i = .ok script ∧ getSpkHash B script = hash
  /-- a descriptor without a wildcard has one script on each path -/
  fixed : wildcard = false → i = INDEX_INITIAL

/-- Different descriptors, paths or indexes have scripts with different hashes. -/
def Distinct (descriptors : List String) : Prop :=
  ∀ d ∈ descriptors, ∀ d' ∈ descriptors, ∀ wildcard wildcard' path path' i i' hash,
    Derives B M d wildcard path i hash → Derives B M d' wildcard' path' i' hash →
      d = d' ∧ path = path' ∧ i = i'

/-- How many indexes of a descriptor are derived when the horizon is at `n`. -/
def span (wildcard : Bool) (n : Nat) : Nat := if wildcard then n else 1

def horizon (s : AddressCacheInner) : Nat :=
  (s.database.stats.map fun stats => stats.derivationIndex.toNat).getD 0

section Scripts

variable {B M} {descriptor : String} {start count : Nat} {scripts : List Script}

theorem horizon_of_stats {s : AddressCacheInner} {stats : Stats}
    (h : s.database.stats = some stats) : horizon s = stats.derivationIndex.toNat := by
  rw [horizon, h]
  rfl

theorem horizon_lt (s : AddressCacheInner) : horizon s < 2 ^ 32 := by
  cases h : s.database.stats with
  | none => simp [horizon, h]
  | some stats => exact horizon_of_stats h ▸ stats.derivationIndex.toNat_lt

theorem span_mono (wildcard : Bool) {n n' : Nat} (h : n ≤ n') :
    span wildcard n ≤ span wildcard n' := by
  cases wildcard with
  | true => exact h
  | false => exact Nat.le_refl _

theorem exists_of_getElem?_flatten {α : Type} {lists : List (List α)} {n : Nat} {a : α}
    (hlen : ∀ l ∈ lists, l.length = n) (h : lists.flatten[position]? = some a) :
    ∃ l ∈ lists, l[position % n]? = some a := by
  induction lists generalizing position with
  | nil => simp at h
  | cons l lists ih =>
    have hl := hlen l List.mem_cons_self
    rw [List.flatten_cons] at h
    by_cases hlt : position < l.length
    · rw [List.getElem?_append_left hlt] at h
      exact ⟨l, List.mem_cons_self, by rwa [← hl, Nat.mod_eq_of_lt hlt]⟩
    · rw [List.getElem?_append_right (Nat.not_lt.mp hlt)] at h
      rcases ih (fun l' hl' => hlen l' (List.mem_cons_of_mem _ hl')) h with ⟨l', hl', ha⟩
      refine ⟨l', List.mem_cons_of_mem _ hl', ?_⟩
      rwa [hl, ← Nat.mod_eq_sub_mod (by omega)] at ha

/-- The position of a script in a batch, modulo the size of the batch, tells its index. -/
theorem derive_position (hfits : start + count < 2 ^ 32)
    (h : M.deriveAddressesFromDescriptor descriptor start count = .ok scripts)
    (hmem : (script, position) ∈ scripts.zipIdx) :
    ∃ paths, M.parseAndSplit descriptor = .ok paths ∧ ∃ path ∈ paths,
      position % count < count ∧ M.scriptAt path (start + position % count) = .ok script := by
  simp only [Miniscript.deriveAddressesFromDescriptor, bind_eq_ok, pure_eq_ok] at h
  rcases h with ⟨paths, hparse, lists, hlists, rfl⟩
  have hat : lists.flatten[position]? = some script := by
    simpa using List.mem_zipIdx_iff_getElem?.mp hmem
  have hlen : ∀ l ∈ lists, l.length = count := by
    intro l hl
    rcases mem_of_mapM_eq_ok hlists hl with ⟨path, -, hl⟩
    rw [← (mapM_eq_ok_iff.mp hl).length_eq, List.length_range']
    omega
  rcases exists_of_getElem?_flatten hlen hat with ⟨l, hl, hscript⟩
  rcases mem_of_mapM_eq_ok hlists hl with ⟨path, hpath, hderive⟩
  refine ⟨paths, hparse, path, hpath, ?_⟩
  have hlt : position % count < count :=
    hlen l hl ▸ (List.getElem?_eq_some_iff.mp hscript).1
  have hlt' : position % count <
      (List.range' start ((start + count) % 2 ^ 32 - start)).length := by
    rw [List.length_range']
    omega
  have hrel := (List.forall₂_iff_get.mp (mapM_eq_ok_iff.mp hderive)).2 (position % count) hlt'
    (by rwa [hlen l hl])
  refine ⟨hlt, ?_⟩
  rcases List.getElem?_eq_some_iff.mp hscript with ⟨hbound, rfl⟩
  simpa using hrel

end Scripts

/-! ## What deriving a range writes -/

/-- The addresses are scripts of the descriptors within the horizon `n`, and the derivation indexes
are theirs. -/
structure Watches (descriptors : List String) (n : Nat) (s : AddressCacheInner) : Prop where
  tracked : ∀ hash ∈ s.addressMap, ∃ d ∈ descriptors, ∃ wildcard path i,
    Derives B M d wildcard path i hash ∧ i < span wildcard n
  indexed : ∀ hash i, s.derivedIndex.lookup hash = some i → ∃ d ∈ descriptors, ∃ path,
    Derives B M d true path i hash ∧ i < n

/-- The indexes from `start` to `stop` of every path have an entry. -/
def Notes (s : AddressCacheInner) (descriptor : String) (start stop : Nat) : Prop :=
  ∀ path i hash, start ≤ i → i < stop → Derives B M descriptor true path i hash →
    hash ∈ s.derivedIndex

section Range

variable {B M} {descriptors : List String} {n : Nat} {s s' : AddressCacheInner}
  {descriptor : String} {start count : Nat}

theorem cacheAddress_derivedIndex (s : AddressCacheInner) (script : Script) :
    (s.cacheAddress B script).derivedIndex = s.derivedIndex := by
  unfold AddressCacheInner.cacheAddress
  dsimp only
  split <;> rfl

theorem mem_of_mem_cacheAddress (h : hash ∈ (s.cacheAddress B script).addressMap) :
    hash ∈ s.addressMap ∨ hash = getSpkHash B script := by
  unfold AddressCacheInner.cacheAddress at h
  dsimp only at h
  split at h
  · exact .inl h
  · exact (Finmap.mem_insert.mp h).symm

namespace Watches

section

variable (h : Watches B M descriptors n s)

include h

theorem mono {descriptors' : List String} {n' : Nat} (hsub : descriptors ⊆ descriptors')
    (hle : n ≤ n') : Watches B M descriptors' n' s := by
  constructor
  · intro hash hmem
    rcases h.tracked hash hmem with ⟨d, hd, wildcard, path, i, hderives, hi⟩
    exact ⟨d, hsub hd, wildcard, path, i, hderives, Nat.lt_of_lt_of_le hi (span_mono wildcard hle)⟩
  · intro hash i hlookup
    rcases h.indexed hash i hlookup with ⟨d, hd, path, hderives, hi⟩
    exact ⟨d, hsub hd, path, hderives, Nat.lt_of_lt_of_le hi hle⟩

theorem cacheAddress
    (hscript : ∃ d ∈ descriptors, ∃ wildcard path i, Derives B M d wildcard path i (getSpkHash B
      script) ∧ i < span wildcard n) : Watches B M descriptors n (s.cacheAddress B script) := by
  constructor
  · intro hash hmem
    rcases mem_of_mem_cacheAddress hmem with hmem | rfl
    · exact h.tracked hash hmem
    · exact hscript
  · rw [cacheAddress_derivedIndex]
    exact h.indexed

theorem setDerivedIndex
    (hindex : ∃ d ∈ descriptors, ∃ path, Derives B M d true path index hash ∧ index < n) :
    Watches B M descriptors n (s.setDerivedIndex hash index) := by
  refine ⟨h.tracked, ?_⟩
  intro hash' i hlookup
  change (s.derivedIndex.insert hash index).lookup hash' = some i at hlookup
  rw [lookup_insert_eq] at hlookup
  split at hlookup
  next heq =>
    subst heq
    cases hlookup
    exact hindex
  · exact h.indexed hash' i hlookup

theorem deriveDescriptor (hd : descriptor ∈ descriptors) (hn : start + count ≤ n)
    (hfits : n < 2 ^ 32) (derived : List Script) :
    Watches B M descriptors n (deriveDescriptor B M start count derived descriptor s).2 := by
  rcases deriveDescriptor_cases start count derived descriptor s with
    ⟨e, heq⟩ | ⟨scripts, hw, hscripts, heq⟩ | ⟨scripts, hw, hscripts, heq⟩
  · rw [heq]
    exact h
  · rw [heq]
    -- every script of the batch is written with the index it has
    have htrue : ∀ p ∈ scripts.zipIdx, ∃ path,
        Derives B M descriptor true path (start + p.2 % count) (getSpkHash B p.1) ∧
          start + p.2 % count < n := by
      intro p hp
      rcases derive_position (Nat.lt_of_le_of_lt hn hfits) hscripts hp with
        ⟨paths, hparse, path, hpath, hlt, hat⟩
      exact ⟨path, ⟨hw, ⟨paths, hparse, hpath⟩, ⟨p.1, hat, rfl⟩, fun hfalse => nomatch hfalse⟩,
        by omega⟩
    clear heq
    dsimp only
    generalize scripts.zipIdx = l at htrue
    induction l generalizing s with
    | nil => exact h
    | cons p l ih =>
      rcases htrue p List.mem_cons_self with ⟨path, hderives, hlt⟩
      refine ih ?_ fun q hq => htrue q (List.mem_cons_of_mem _ hq)
      exact (h.setDerivedIndex ⟨descriptor, hd, path, hderives, hlt⟩).cacheAddress
        ⟨descriptor, hd, true, path, _, hderives, hlt⟩
  · rw [heq]
    have htrue : ∀ script ∈ scripts, ∃ path,
        Derives B M descriptor false path INDEX_INITIAL (getSpkHash B script) := by
      intro script hscript
      rcases mem_derive hscripts hscript with ⟨paths, hparse, path, hpath, i, hi, hi', hat⟩
      obtain rfl : i = INDEX_INITIAL := by omega
      exact ⟨path, hw, ⟨paths, hparse, hpath⟩, ⟨script, hat, rfl⟩, fun _ => rfl⟩
    clear heq hscripts
    dsimp only
    induction scripts generalizing s with
    | nil => exact h
    | cons script scripts ih =>
      rcases htrue script List.mem_cons_self with ⟨path, hderives⟩
      refine ih ?_ fun script' hmem => htrue script' (List.mem_cons_of_mem _ hmem)
      exact h.cacheAddress ⟨descriptor, hd, false, path, _, hderives, Nat.zero_lt_one⟩

theorem deriveRange (hbatch : batch ⊆ descriptors) (hn : start + count ≤ n) (hfits : n < 2 ^ 32) :
    Watches B M descriptors n (deriveRange B M batch start count s).2 := by
  unfold AddressCacheInner.deriveRange
  generalize ([] : List Script) = derived
  induction batch generalizing s derived with
  | nil => exact h
  | cons d batch ih =>
    have hd := h.deriveDescriptor (hbatch List.mem_cons_self) hn hfits derived
    rw [List.foldlM_cons, Prog.bind_apply]
    generalize AddressCacheInner.deriveDescriptor B M start count derived d s = r at hd ⊢
    rcases r with ⟨e | derived', t⟩
    · exact hd
    · exact ih hd (fun d' hd' => hbatch (List.mem_cons_of_mem _ hd')) derived'

end

end Watches

/-! ### Entries stay, and every script of a batch has one -/

theorem mem_foldl_derivedIndex (l : List (Script × Nat)) (s : AddressCacheInner)
    (hash : Hash256) : hash ∈ (l.foldl (cacheNumbered B start count) s).derivedIndex ↔
      hash ∈ s.derivedIndex ∨ ∃ p ∈ l, getSpkHash B p.1 = hash := by
  induction l generalizing s with
  | nil => simp
  | cons p l ih =>
    rw [List.foldl_cons, ih, cacheNumbered, cacheAddress_derivedIndex]
    change hash ∈ s.derivedIndex.insert _ _ ∨ _ ↔ _
    rw [Finmap.mem_insert, List.exists_mem_cons_iff, eq_comm, or_comm (a := _ = _), or_assoc]

theorem foldl_cacheAddress_derivedIndex (scripts : List Script) (s : AddressCacheInner) :
    (scripts.foldl (fun s script => s.cacheAddress B script) s).derivedIndex = s.derivedIndex := by
  induction scripts generalizing s with
  | nil => rfl
  | cons script scripts ih => rw [List.foldl_cons, ih, cacheAddress_derivedIndex]

theorem deriveDescriptor_notes {derived' : List Script} (hfits : start + count < 2 ^ 32)
    (h : deriveDescriptor B M start count derived descriptor s = (.ok derived', s')) :
    (∀ hash ∈ s.derivedIndex, hash ∈ s'.derivedIndex) ∧
      Notes B M s' descriptor start (start + count) := by
  rcases deriveDescriptor_cases start count derived descriptor s with
    ⟨e, heq⟩ | ⟨scripts, hw, hscripts, heq⟩ | ⟨scripts, hw, hscripts, heq⟩
  · cases heq.symm.trans h
  · cases heq.symm.trans h
    refine ⟨fun hash hmem => (mem_foldl_derivedIndex ..).mpr (.inl hmem), ?_⟩
    intro path i hash hi hi' hderives
    rcases hderives.split with ⟨paths, hparse, hpath⟩
    rcases hderives.script with ⟨script, hat, rfl⟩
    rcases derive_paths hfits hscripts with ⟨paths', hparse', hpaths⟩
    cases hparse.symm.trans hparse'
    rcases hpaths path hpath i hi hi' with ⟨script', hmem, hat'⟩
    cases hat.symm.trans hat'
    rcases List.mem_iff_getElem?.mp hmem with ⟨k, hk⟩
    exact (mem_foldl_derivedIndex ..).mpr
      (.inr ⟨(script, k), List.mem_zipIdx_iff_getElem?.mpr hk, rfl⟩)
  · cases heq.symm.trans h
    refine ⟨fun hash hmem => by rwa [foldl_cacheAddress_derivedIndex], ?_⟩
    intro path i hash hi hi' hderives
    cases hw.symm.trans hderives.parsed

theorem deriveRange_notes (hfits : start + count < 2 ^ 32)
    (h : deriveRange B M batch start count s = (.ok derived, s')) :
    (∀ hash ∈ s.derivedIndex, hash ∈ s'.derivedIndex) ∧
      ∀ d ∈ batch, Notes B M s' d start (start + count) := by
  unfold deriveRange at h
  generalize ([] : List Script) = acc at h
  induction batch generalizing s acc with
  | nil =>
    cases h
    exact ⟨fun _ hmem => hmem, fun d hd => absurd hd List.not_mem_nil⟩
  | cons d batch ih =>
    rw [List.foldlM_cons] at h
    rcases Prog.bind_eq_ok_iff.mp h with ⟨acc', t, hd, hrest⟩
    rcases deriveDescriptor_notes hfits hd with ⟨hkeep, hnotes⟩
    rcases ih acc' hrest with ⟨hkeep', hnotes'⟩
    refine ⟨fun hash hmem => hkeep' hash (hkeep hash hmem), ?_⟩
    intro d' hd'
    rcases List.mem_cons.mp hd' with rfl | hd'
    · exact fun path i hash hi hi' hderives => hkeep' hash (hnotes path i hash hi hi' hderives)
    · exact hnotes' d' hd'

theorem deriveRange_uniform (batch : List String) (start count : Nat) :
    Prog.Uniform (fun _ => True) (deriveRange B M batch start count) := by
  refine Prog.Uniform.foldlM (fun derived d => ?_) batch []
  refine Prog.Uniform.bind (Prog.Uniform.lift _) fun wildcard => Prog.Uniform.ite ?_ ?_
  · refine Prog.Uniform.bind (Prog.Uniform.lift _) fun scripts => ?_
    refine Prog.Uniform.bind ⟨.ok (), fun s _ => ⟨?_, trivial⟩⟩ fun _ => Prog.Uniform.pure _
    rw [cacheDerived_eq]
  · refine Prog.Uniform.bind (Prog.Uniform.lift _) fun scripts => ?_
    refine Prog.Uniform.bind ⟨.ok (), fun s _ => ⟨?_, trivial⟩⟩ fun _ => Prog.Uniform.pure _
    rw [cacheFixed_eq]

theorem deriveAddresses_fst (hstats : t.database.stats = s.database.stats)
    (hdescriptors : t.database.descriptors = s.database.descriptors) :
    (deriveAddresses B M t).1 = (deriveAddresses B M s).1 := by
  unfold deriveAddresses
  rw [Prog.bind_apply, Prog.bind_apply]
  cases hs : s.database.stats with
  | none =>
    rw [Derived.getStats_none hs, Derived.getStats_none (hstats.trans hs)]
  | some stats =>
    rw [Derived.getStats_some hs, Derived.getStats_some (hstats.trans hs)]
    dsimp only
    rw [Prog.bind_apply, Prog.bind_apply]
    dsimp only [Prog.read]
    rw [Prog.bind_apply, Prog.bind_apply, hdescriptors, Derived.deriveRangeOrFail_eq,
      Derived.deriveRangeOrFail_eq]
    rcases deriveRange_uniform (B := B) (M := M) s.database.descriptors stats.derivationIndex.toNat
      DERIVATION_COUNT with ⟨r, hr⟩
    rw [(hr s trivial).1, (hr t trivial).1]
    cases r with
    | error e => rfl
    | ok derived => rfl

end Range

/-! ## Descriptors stay -/

def Later (s s' : AddressCacheInner) : Prop := s.database.descriptors ⊆ s'.database.descriptors

namespace Later

variable {B M} {s s' : AddressCacheInner}

theorem stable (s : AddressCacheInner) : Stable B (Later s) where
  cacheAddress s' script h := by
    unfold Later
    rw [((Extends.refl s').cacheAddress (B := B) script).descriptors]
    exact h
  derivedIndex _ _ h := h
  saveStats _ _ h := h

theorem cacheTransaction {value : Nat} {proof : MerkleProof} {isSpend : Bool}
    (hok : t.cacheTransaction B M tx height value proof position index isSpend hash = .ok s')
    (h : Later s t) : Later s s' := by
  unfold AddressCacheInner.cacheTransaction followAddress at hok
  rcases bind_eq_ok.mp hok with ⟨t', hfollow, hok⟩
  rcases bind_eq_ok.mp hok with ⟨t'', hderive, hsave⟩
  have ht : Later s t' := by
    split at hfollow
    · cases hfollow
      exact h
    · rcases bind_eq_ok.mp hfollow with ⟨out, -, hfollow⟩
      cases hfollow
      exact h
  have hsave : saveTx B t'' tx value index isSpend hash (.record B tx height proof position) =
      .ok s' := hsave
  unfold Later
  rw [(saveTx_extends hsave).descriptors]
  exact (stable s).maybeDeriveAddresses ht hderive

theorem look {item : Item} (hlook : look B M t item = .ok s') (h : Later s t) : Later s s' := by
  cases htouches : item.touches B t with
  | none =>
    cases (look_of_untouched (M := M) htouches).symm.trans hlook
    exact h
  | some hash =>
    cases item with
    | input place tx txin vin =>
      rcases look_input_ok htouches hlook with ⟨a, value, proof, -, -, hok⟩
      exact cacheTransaction hok h
    | output place tx out vout =>
      rcases look_output_ok (Item.touches_output.mp htouches).1 hlook with ⟨proof, -, hok⟩
      exact cacheTransaction hok h

theorem rederive (hok : rederive B M t = .ok s') (h : Later s t) : Later s s' := by
  unfold AddressCacheInner.rederive at hok
  split at hok
  · cases hok
    exact h
  rcases bind_eq_ok.mp hok with ⟨stats, -, hok⟩
  split at hok
  rename_i stats' t' hlow
  have ht' : Later s t' := by
    split at hlow
    all_goals
      cases hlow
      exact h
  have hrange := (stable (B := B) s).deriveRange (M := M) t'.database.descriptors INDEX_INITIAL
    stats'.derivationIndex.toNat t' ht'
  split at hok
  · rename_i hrun
    cases hok
    rwa [hrun] at hrange
  · cases hok

theorem new (hnew : AddressCacheInner.new B M s.database = .ok s') : Later s s' := by
  refine rederive hnew ?_
  have hloaded := (loadedKeys_load (if s.database.stats.isNone then s.database.saveStats ⟨0⟩
    else s.database)).database
  unfold unloaded at hloaded
  unfold Later
  rw [hloaded]
  split <;> exact List.Subset.refl _

end Later

/-! ## Batches that payments ask for -/

/-- The batch that a payment to `hash` asks for is derived, if it asks for one, and the new index
fits in 32 bits. -/
def succeeds (s : AddressCacheInner) (hash : Hash256) : Bool :=
  (s.derivedIndex.lookup hash).all fun index =>
    decide (index + GAP_LIMIT < horizon s) ||
      ((deriveAddresses B M s).1.toOption.isSome && decide (horizon s + DERIVATION_COUNT < 2 ^ 32))

/-- Every batch that a loop asks for is derived: `hash` says which address a round touches. -/
def allSucceed {σ γ : Type} (wallet : σ → AddressCacheInner) (hash : σ → γ → Option Hash256)
    (step : σ → γ → Except Panic σ) (st : σ) : List γ → Bool
  | [] => true
  | c :: cs => (hash st c).all (succeeds B M (wallet st)) &&
      (step st c).toOption.all fun st' => allSucceed wallet hash step st' cs

/-- Every batch that `block_process` asks for is derived. -/
def blockSucceeds (s : AddressCacheInner) (block : Block) (height : Nat) : Bool :=
  allSucceed B M Prod.fst (fun st item => item.touches B st.1) (gather B M) (s, [])
    (blockItems block height)

def paysTracked (s : AddressCacheInner) (out : TxOut) : Option Hash256 :=
  if getSpkHash B out.scriptPubkey ∈ s.scriptSet then some (getSpkHash B out.scriptPubkey) else none

/-- Every batch that `cache_mempool_transaction` asks for is derived. -/
def mempoolSucceeds (s : AddressCacheInner) (tx : Transaction) : Bool :=
  (s.findSpend tx).toOption.all fun coins =>
    allSucceed B M id (fun _ coin => some (getSpkHash B coin.2.scriptPubkey))
      (cacheUnconfirmed B M tx) s coins &&
    (coins.foldlM (cacheUnconfirmed B M tx) s).toOption.all fun s =>
      allSucceed B M Prod.fst (fun st output => paysTracked B st.1 output.1)
        (cacheUnconfirmedOutput B M tx) (s, coins) tx.output.zipIdx

section Loops

variable {B M} {σ γ : Type} {wallet : σ → AddressCacheInner} {hash : σ → γ → Option Hash256}
  {step : σ → γ → Except Panic σ}

/-- What every round keeps that derives the batch it asks for, the loop keeps. -/
theorem allSucceed_inv {I : List γ → σ → Prop}
    (hstep : ∀ done c st st', I done st → (hash st c).all (succeeds B M (wallet st)) = true →
      step st c = .ok st' → I (done ++ [c]) st') (done : List γ) {l : List γ} {st st' : σ}
    (hI : I done st) (hall : allSucceed B M wallet hash step st l = true)
    (hfold : l.foldlM step st = .ok st') : I (done ++ l) st' := by
  induction l generalizing done st with
  | nil =>
    cases hfold
    simpa using hI
  | cons c l ih =>
    rw [List.foldlM_cons, bind_eq_ok] at hfold
    rcases hfold with ⟨t, hc, hfold⟩
    rw [allSucceed, hc, Bool.and_eq_true] at hall
    have := ih (done ++ [c]) (hstep done c st t hI hall.1 hc) hall.2 hfold
    rwa [List.append_assoc] at this

end Loops

/-! ## Ahead of the payments -/

/-- The wallet watches what it should, and the addresses that were paid are well below the
horizon. -/
structure Ahead (paid : List Hash256) (s : AddressCacheInner) : Prop where
  keyed : Keyed s
  derived : Derived B M s
  first : s.database.descriptors ≠ [] → DERIVATION_COUNT ≤ horizon s
  watches : Watches B M s.database.descriptors (horizon s) s
  notes : ∀ d ∈ s.database.descriptors, Notes B M s d INDEX_INITIAL (horizon s)
  received : ∀ hash ∈ paid, hash ∈ s.addressMap
  gap : ∀ hash ∈ paid, ∀ d ∈ s.database.descriptors, ∀ path i,
    Derives B M d true path i hash → i + GAP_LIMIT < horizon s

/-- The second cache has the same descriptors, and its horizon is not below that of the first. -/
structure Onward (s s' : AddressCacheInner) : Prop where
  descriptors : s'.database.descriptors = s.database.descriptors
  horizon : horizon s ≤ horizon s'

theorem Onward.refl (s : AddressCacheInner) : Onward s s := ⟨rfl, Nat.le_refl _⟩

theorem Onward.trans {s s' : AddressCacheInner} (h : Onward s t) (h' : Onward t s') : Onward s s' :=
  ⟨h'.descriptors.trans h.descriptors, h.horizon.trans h'.horizon⟩

namespace Ahead

variable {B M} {paid : List Hash256} {s s' : AddressCacheInner} {descriptors : List String}

theorem lookup (h : Ahead B M paid s) (hdistinct : Distinct B M descriptors)
    (hsub : s.database.descriptors ⊆ descriptors) {d : String} (hd : d ∈ s.database.descriptors)
    {path : M.Descriptor} {i : Nat} (hi : i < horizon s)
    (hderives : Derives B M d true path i hash) : s.derivedIndex.lookup hash = some i := by
  have hmem := h.notes d hd path i hash (Nat.zero_le i) hi hderives
  rcases Finmap.mem_iff.mp hmem with ⟨j, hj⟩
  rcases h.watches.indexed hash j hj with ⟨d', hd', path', hderives', -⟩
  rcases hdistinct d (hsub hd) d' (hsub hd') _ _ _ _ _ _ hash hderives hderives' with ⟨-, -, rfl⟩
  exact hj

/-- A cache with the same descriptors, horizon and addresses is as far ahead, if its index is. -/
theorem transfer (h : Ahead B M paid s)
    (hdescriptors : s'.database.descriptors = s.database.descriptors)
    (hstats : s'.database.stats = s.database.stats)
    (hkeys : ∀ hash, hash ∈ s'.addressMap ↔ hash ∈ s.addressMap) (hkeyed : Keyed s')
    (hwatches : Watches B M s.database.descriptors (horizon s) s')
    (hnotes : ∀ d ∈ s.database.descriptors, Notes B M s' d INDEX_INITIAL (horizon s)) :
    Ahead B M paid s' := by
  have hhorizon : horizon s' = horizon s := by
    rw [horizon, hstats]
    rfl
  refine ⟨hkeyed, h.derived.mono ⟨hdescriptors, hstats, fun hash => (hkeys hash).mpr⟩, ?_, ?_, ?_,
    fun hash hmem => (hkeys hash).mpr (h.received hash hmem), ?_⟩
  all_goals rw [hdescriptors, hhorizon]
  · exact h.first
  · exact hwatches
  · exact hnotes
  · exact h.gap

theorem kept (h : Ahead B M paid s) (hkept : Kept s s') (hkeyed : Keyed s') :
    Ahead B M paid s' := by
  refine h.transfer hkept.descriptors hkept.stats hkept.addressMap hkeyed
    ⟨fun hash hmem => h.watches.tracked hash ((hkept.addressMap hash).mp hmem), ?_⟩ ?_
  · rw [hkept.derivedIndex]
    exact h.watches.indexed
  · intro d hd path i hash hi hi' hderives
    rw [hkept.derivedIndex]
    exact h.notes d hd path i hash hi hi' hderives

theorem empty : Ahead B M [] emptyCache := by
  refine ⟨⟨rfl, ?_, ?_, ?_, ?_⟩, ⟨?_⟩, ?_, ⟨?_, ?_⟩, ?_, ?_, ?_⟩
  all_goals simp [emptyCache, KvDatabase.empty, KvDatabase.saveStats, Finmap.notMem_empty]

/-! ### Deriving -/

theorem deriveAddresses (h : Ahead B M paid s) (hfits : horizon s + DERIVATION_COUNT < 2 ^ 32)
    (hok : AddressCacheInner.deriveAddresses B M s = (.ok (), s')) :
    Ahead B M paid s' ∧ horizon s' = horizon s + DERIVATION_COUNT ∧ Onward s s' := by
  have hkeyed : Keyed s' := by
    have := Keyed.stable.deriveAddresses (B := B) (M := M) s h.keyed
    rwa [hok] at this
  have hderived : Derived B M s' := by
    have := h.derived.deriveAddresses
    rwa [hok] at this
  rcases Derived.deriveAddresses_cases (B := B) (M := M) s with
    heq | ⟨stats, t, hstats, ⟨e, -, heq⟩ | ⟨derived, hrange, heq⟩⟩
  · cases heq.symm.trans hok
  · cases heq.symm.trans hok
  cases heq.symm.trans hok
  have hn := horizon_of_stats hstats
  have hext := Extends.of_deriveRange hrange
  have hwatches : Watches B M s.database.descriptors (horizon s + DERIVATION_COUNT) t := by
    have hle : stats.derivationIndex.toNat + DERIVATION_COUNT ≤ horizon s + DERIVATION_COUNT := by
      rw [hn]
    have := (h.watches.mono (List.Subset.refl _) (Nat.le_add_right _ DERIVATION_COUNT)).deriveRange
      (List.Subset.refl _) hle hfits
    rwa [hrange] at this
  rcases deriveRange_notes (hn ▸ hfits) hrange with ⟨hkeep, hnotes⟩
  have hn' : horizon { t with database := t.database.saveStats { stats with
      derivationIndex := stats.derivationIndex + .ofNat DERIVATION_COUNT } } =
        horizon s + DERIVATION_COUNT := by
    rw [hn] at hfits ⊢
    exact (Derived.toNat_add_count _).trans (Nat.mod_eq_of_lt hfits)
  refine ⟨⟨hkeyed, hderived, fun _ => ?_, ?_, ?_, ?_, ?_⟩, hn', hext.descriptors,
    hn' ▸ Nat.le_add_right _ _⟩
  · rw [hn']
    exact Nat.le_add_left _ _
  · rw [hn']
    change Watches B M t.database.descriptors _ _
    rw [hext.descriptors]
    exact ⟨hwatches.tracked, hwatches.indexed⟩
  · rw [hn']
    intro d hd path i hash hi hi' hderives
    have hd' : d ∈ s.database.descriptors := hext.descriptors ▸ hd
    -- below the old horizon the entry is an old one
    by_cases hlt : i < horizon s
    · exact hkeep hash (h.notes d hd' path i hash hi hlt hderives)
    · exact hnotes d hd' path i hash (by omega) (by omega) hderives
  · exact fun hash hmem => hext.addressMap hash (h.received hash hmem)
  · rw [hn']
    intro hash hmem d hd path i hderives
    have := h.gap hash hmem d (hext.descriptors ▸ hd) path i hderives
    omega

theorem pushDescriptor (h : Ahead B M paid s) (hdistinct : Distinct B M descriptors)
    (descriptor : String)
    (hsub : (AddressCacheInner.pushDescriptor B M descriptor s).2.database.descriptors ⊆
      descriptors) : Ahead B M paid (AddressCacheInner.pushDescriptor B M descriptor s).2 ∧
      horizon s ≤ horizon (AddressCacheInner.pushDescriptor B M descriptor s).2 := by
  have hkeyed : Keyed (AddressCacheInner.pushDescriptor B M descriptor s).2 :=
    Keyed.stable.pushDescriptor
      (fun s d hs => { hs with }) descriptor s h.keyed
  have hderived := h.derived.pushDescriptor descriptor
  rcases Derived.pushDescriptor_cases descriptor s with
    heq | ⟨stats, derived, t, hstats, hrange, heq⟩
  · rw [heq]
    exact ⟨h, Nat.le_refl _⟩
  rw [heq] at hsub hkeyed hderived ⊢
  have hn := horizon_of_stats hstats
  have hext := Extends.of_deriveRange hrange
  have hfits := Derived.max_count_lt stats.derivationIndex
  rw [← hn] at hfits hrange heq hsub hkeyed hderived ⊢
  have hn' : horizon { t with
      database := (t.database.saveDescriptor descriptor).saveStats
        ⟨.ofNat (max (horizon s) DERIVATION_COUNT)⟩ } = max (horizon s) DERIVATION_COUNT :=
    UInt32.toNat_ofNat_of_lt' hfits
  have hdescriptors : (t.database.saveDescriptor descriptor).descriptors =
      s.database.descriptors ++ [descriptor] := congrArg (· ++ [descriptor]) hext.descriptors
  have hle : horizon s ≤ max (horizon s) DERIVATION_COUNT := Nat.le_max_left _ _
  have hwatches : Watches B M (s.database.descriptors ++ [descriptor])
      (max (horizon s) DERIVATION_COUNT) t := by
    have hbound : INDEX_INITIAL + max (horizon s) DERIVATION_COUNT ≤
        max (horizon s) DERIVATION_COUNT := Nat.le_of_eq (Nat.zero_add _)
    have := (h.watches.mono (List.subset_append_left _ [descriptor]) hle).deriveRange
      (List.subset_append_right _ _) hbound hfits
    rwa [hrange] at this
  rcases deriveRange_notes ((Nat.zero_add _).symm ▸ hfits) hrange with ⟨hkeep, hnotes⟩
  rw [hn']
  refine ⟨⟨hkeyed, hderived, fun _ => ?_, ?_, ?_, ?_, ?_⟩, hle⟩
  · rw [hn']
    exact Nat.le_max_right _ _
  · rw [hn']
    change Watches B M (t.database.saveDescriptor descriptor).descriptors _ _
    rw [hdescriptors]
    exact ⟨hwatches.tracked, hwatches.indexed⟩
  · rw [hn']
    intro d hd path i hash hi hi' hderives
    change d ∈ (t.database.saveDescriptor descriptor).descriptors at hd
    rw [hdescriptors, List.mem_append] at hd
    rcases hd with hd | hd
    · -- with a descriptor in the wallet the horizon stays where it is
      rw [Nat.max_eq_left (h.first (List.ne_nil_of_mem hd))] at hi'
      exact hkeep hash (h.notes d hd path i hash hi hi' hderives)
    · refine hnotes d hd path i hash hi ?_ hderives
      rwa [INDEX_INITIAL, Nat.zero_add]
  · exact fun hash hmem => hext.addressMap hash (h.received hash hmem)
  · rw [hn']
    intro hash hmem d hd path i hderives
    -- a paid address belongs to a descriptor that was there before
    rcases h.watches.tracked hash (h.received hash hmem) with ⟨d', hd', w, path', i', hderives', -⟩
    have hd'' : d' ∈ (t.database.saveDescriptor descriptor).descriptors := by
      rw [hdescriptors]
      exact List.mem_append_left _ hd'
    rcases hdistinct d (hsub hd) d' (hsub hd'') _ _ _ _ _ _ hash hderives hderives' with ⟨rfl, -, -⟩
    exact Nat.lt_of_lt_of_le (h.gap hash hmem d hd' path i hderives) hle

/-! ### Opening the database -/

theorem loaded (h : Ahead B M paid s)
    (ht : LoadedKeys s.database s.database.load t) : Keyed t ∧ Extends s t ∧
      ∀ hash, hash ∈ t.addressMap ↔ hash ∈ s.addressMap := by
  have hkeys : ∀ hash, hash ∈ t.addressMap ↔ hash ∈ s.addressMap :=
    fun hash => (ht.addressMap hash).trans (h.keyed.exists_mem_load hash)
  refine ⟨⟨?_, ?_, ht.own, ?_, ?_⟩, ⟨?_, ?_, fun hash => (hkeys hash).mpr⟩, hkeys⟩
  · rw [ht.database]
    exact h.keyed.stats
  · exact fun hash => (ht.scriptSet hash).trans (ht.addressMap hash).symm
  · rw [ht.database]
    exact fun hash => (h.keyed.saved hash).trans (hkeys hash).symm
  · rw [ht.database]
    exact h.keyed.savedOwn
  · rw [ht.database]
  · rw [ht.database]

theorem reopen (h : Ahead B M paid s) :
    ∃ s', AddressCacheInner.new B M s.database = .ok s' ∧ s'.database = s.database ∧
      Ahead B M paid s' := by
  obtain ⟨stats, hstats⟩ := Option.isSome_iff_exists.mp h.keyed.stats
  have hn := horizon_of_stats hstats
  have ht := loadedKeys_load s.database
  rw [new_of_stats hstats]
  generalize s.database.load.foldl insertLoaded (unloaded s.database) = t at ht ⊢
  rcases h.loaded ht with ⟨hkeyed, hext, hkeys⟩
  have hdt := h.derived.mono hext
  -- no entry is left before the descriptors are derived
  have hwatches : Watches B M s.database.descriptors (horizon s) t := by
    refine ⟨fun hash hmem => h.watches.tracked hash ((hkeys hash).mp hmem), ?_⟩
    rw [ht.derivedIndex]
    simp
  rcases hdt.rederive (by rw [ht.database, hstats]) with
    ⟨hnil, heq⟩ | ⟨hne, derived, database, index, hrange, heq, hdatabase⟩
  · refine ⟨t, heq, ht.database, h.transfer hext.descriptors hext.stats hkeys hkeyed hwatches ?_⟩
    intro d hd
    rw [← ht.database, hnil] at hd
    exact absurd hd List.not_mem_nil
  have hcount := h.first (ht.database ▸ hne)
  obtain rfl := hdatabase (hn ▸ hcount)
  refine ⟨_, heq, ht.database, ?_⟩
  change deriveRange B M t.database.descriptors INDEX_INITIAL _ t = _ at hrange
  rw [ht.database, ← hn, Nat.max_eq_left hcount] at hrange
  refine h.transfer hext.descriptors hext.stats hkeys
    (Keyed.stable.derivedIndex (B := B) t index hkeyed) ?_ ?_
  · have hbound : INDEX_INITIAL + horizon s ≤ horizon s := Nat.le_of_eq (Nat.zero_add _)
    have := hwatches.deriveRange (List.Subset.refl _) hbound (horizon_lt s)
    rw [hrange] at this
    exact ⟨this.tracked, this.indexed⟩
  · intro d hd
    have := (deriveRange_notes ((Nat.zero_add _).symm ▸ horizon_lt s) hrange).2 d hd
    rwa [INDEX_INITIAL, Nat.zero_add] at this

/-! ### Payments -/

theorem maybeDeriveAddresses (h : Ahead B M paid s)
    (hsucceeds : succeeds B M s hash = true) (hok : s.maybeDeriveAddresses B M hash = .ok s') :
    Ahead B M paid s' ∧ Onward s s' ∧
      ∀ i, s.derivedIndex.lookup hash = some i → i + GAP_LIMIT < horizon s' := by
  obtain ⟨stats, hstats⟩ := Option.isSome_iff_exists.mp h.keyed.stats
  unfold AddressCacheInner.maybeDeriveAddresses at hok
  unfold succeeds at hsucceeds
  cases hindex : s.derivedIndex.lookup hash with
  | none =>
    rw [hindex] at hok
    cases hok
    exact ⟨h, .refl _, fun i hi => nomatch hi⟩
  | some index =>
    rw [hindex, hstats] at hok
    rw [hindex] at hsucceeds
    have hn := horizon_of_stats hstats
    change (if stats.derivationIndex.toNat ≤ (index + GAP_LIMIT) % 2 ^ 32 then _ else _) = _ at hok
    rw [← hn] at hok
    rcases h.watches.indexed hash index hindex with ⟨-, -, -, -, hlt⟩
    have hgap : GAP_LIMIT < DERIVATION_COUNT := by decide
    have hbound := horizon_lt s
    by_cases hnear : horizon s ≤ index + GAP_LIMIT
    · rw [Option.all_some, decide_eq_false (Nat.not_lt.mpr hnear), Bool.false_or,
        Bool.and_eq_true, decide_eq_true_iff] at hsucceeds
      rcases hsucceeds with ⟨hsucceeds, hfits⟩
      rw [if_pos (by omega)] at hok
      cases hok
      have hderived : (AddressCacheInner.deriveAddresses B M s).1 = .ok () := by
        cases hr : (AddressCacheInner.deriveAddresses B M s).1 with
        | error e =>
          rw [hr] at hsucceeds
          cases hsucceeds
        | ok u => rfl
      rcases h.deriveAddresses hfits (Prod.ext hderived rfl) with ⟨hahead, hhorizon, honward⟩
      refine ⟨hahead, honward, ?_⟩
      intro i hi
      cases hi
      rw [hhorizon]
      omega
    · rw [if_neg (by omega)] at hok
      cases hok
      refine ⟨h, .refl _, ?_⟩
      intro i hi
      cases hi
      omega

theorem stored (h : Ahead B M paid s) (record : CachedTransaction) :
    Ahead B M paid (stored B s record) :=
  h.kept ⟨rfl, rfl, rfl, fun _ => Iff.rfl⟩ (h.keyed.stored record)

theorem cacheTransaction (h : Ahead B M paid s) (hdistinct : Distinct B M descriptors)
    (hsub : s.database.descriptors ⊆ descriptors) {value : Nat}
    {proof : MerkleProof} {isSpend : Bool}
    (hmem : hash ∈ s.addressMap) (hsucceeds : succeeds B M s hash = true)
    (hok : s.cacheTransaction B M tx height value proof position index isSpend hash = .ok s') :
    Ahead B M (paid ++ [hash]) s' ∧ Onward s s' := by
  rcases cacheTransaction_ok hmem hok with ⟨t, hderive, hgrows, hsave⟩
  have hsucceeds' : succeeds B M (Wallet.stored B s (.record B tx height proof position)) hash =
      true := by
    have hsame : (AddressCacheInner.deriveAddresses B M (Wallet.stored B s
        (.record B tx height proof position))).1 = (AddressCacheInner.deriveAddresses B M s).1 :=
      deriveAddresses_fst rfl rfl
    unfold succeeds at hsucceeds ⊢
    rw [hsame]
    exact hsucceeds
  rcases (h.stored _).maybeDeriveAddresses hsucceeds' hderive with ⟨ht, honward, hgap⟩
  rcases ht.keyed.saveTx (hgrows.mem hmem) hsave with ⟨hkeyed, hkept⟩
  have hs' := ht.kept hkept hkeyed
  have hhorizon : horizon s' = horizon t := by
    rw [horizon, hkept.stats]
    rfl
  have hdescriptors : s'.database.descriptors = s.database.descriptors :=
    hkept.descriptors.trans honward.descriptors
  refine ⟨⟨hkeyed, hs'.derived, hs'.first, hs'.watches, hs'.notes, ?_, ?_⟩, hdescriptors,
    hhorizon ▸ honward.horizon⟩
  · refine forall_mem_snoc hs'.received ?_
    rw [hkept.addressMap]
    exact hgrows.mem hmem
  · refine forall_mem_snoc hs'.gap fun d hd path i hderives => ?_
    rw [hdescriptors] at hd
    -- the address is tracked as the script it is, so its entry is `i`
    rcases h.watches.tracked hash hmem with ⟨d', hd', wildcard, path', i', hderives', hi'⟩
    rcases hdistinct d (hsub hd) d' (hsub hd') _ _ _ _ _ _ hash hderives hderives' with
      ⟨rfl, -, rfl⟩
    cases hderives.parsed.symm.trans hderives'.parsed
    rw [hhorizon]
    exact hgap i (h.lookup hdistinct hsub hd hi' hderives)

theorem subset (h : Ahead B M paid s) {paid' : List Hash256} (hsub : paid' ⊆ paid) :
    Ahead B M paid' s :=
  ⟨h.keyed, h.derived, h.first, h.watches, h.notes, fun hash hmem => h.received hash (hsub hmem),
    fun hash hmem => h.gap hash (hsub hmem)⟩

theorem gather {st st' : AddressCacheInner × List (Transaction × TxOut)} {item : Item}
    (h : Ahead B M (paid ++ st.2.map fun p => getSpkHash B p.2.scriptPubkey) st.1)
    (hdistinct : Distinct B M descriptors) (hsub : st.1.database.descriptors ⊆ descriptors)
    (hsucceeds : (item.touches B st.1).all (succeeds B M st.1) = true)
    (hok : gather B M st item = .ok st') :
    Ahead B M (paid ++ st'.2.map fun p => getSpkHash B p.2.scriptPubkey) st'.1 ∧
      Onward st.1 st'.1 := by
  unfold Wallet.gather at hok
  rcases bind_eq_ok.mp hok with ⟨t, hlook, hok⟩
  cases hok
  cases htouches : item.touches B st.1 with
  | none =>
    cases (look_of_untouched (M := M) htouches).symm.trans hlook
    rw [Item.finds_of_untouched htouches, List.append_nil]
    exact ⟨h, .refl _⟩
  | some hash =>
    rw [htouches, Option.all_some] at hsucceeds
    rcases look_touched h.keyed.tracked h.keyed.own htouches hlook with
      ⟨value, proof, index, isSpend, hmem, -, hcache⟩
    rcases h.cacheTransaction hdistinct hsub hmem hsucceeds hcache with ⟨ht, honward⟩
    refine ⟨ht.subset ?_, honward⟩
    -- what the item finds is a payment to the address it touches
    rw [List.map_append, ← List.append_assoc]
    refine List.append_subset.mpr ⟨List.subset_append_left _ _,
      List.Subset.trans ?_ (List.subset_append_right _ _)⟩
    intro hash' hhash'
    rcases List.mem_map.mp hhash' with ⟨p, hp, rfl⟩
    rw [Item.finds_touches htouches p hp]
    exact List.mem_singleton.mpr rfl

theorem blockProcess (h : Ahead B M paid s) (hdistinct : Distinct B M descriptors)
    (hsub : s.database.descriptors ⊆ descriptors) {block : Block}
    {found : List (Transaction × TxOut)} (hsucceeds : blockSucceeds B M s block height = true)
    (hprocess : s.blockProcess B M block height = .ok (s', found)) :
    Ahead B M (paid ++ found.map fun p => getSpkHash B p.2.scriptPubkey) s' ∧ Onward s s' := by
  rw [blockProcess_gather] at hprocess
  refine allSucceed_inv (I := fun _ st =>
    Ahead B M (paid ++ st.2.map fun p => getSpkHash B p.2.scriptPubkey) st.1 ∧
      Onward s st.1) ?_ [] ⟨?_, .refl s⟩ hsucceeds hprocess
  · intro done item st st' hst hall hok
    rcases hst.1.gather hdistinct (hst.2.descriptors ▸ hsub) hall hok with ⟨hst', honward⟩
    exact ⟨hst', hst.2.trans honward⟩
  · simpa using h

theorem cacheUnconfirmed (h : Ahead B M paid s) (hdistinct : Distinct B M descriptors)
    (hsub : s.database.descriptors ⊆ descriptors) {coin : Nat × TxOut}
    (hsucceeds : succeeds B M s (getSpkHash B coin.2.scriptPubkey) = true)
    (hok : cacheUnconfirmed B M tx s coin = .ok s') :
    Ahead B M (paid ++ [getSpkHash B coin.2.scriptPubkey]) s' ∧ Onward s s' := by
  simp only [AddressCacheInner.cacheUnconfirmed, bind_eq_ok, okOr_eq_ok] at hok
  rcases hok with ⟨a, ha, hok⟩
  rw [h.keyed.own _ a ha] at hok
  exact h.cacheTransaction hdistinct hsub (Finmap.mem_of_lookup_eq_some ha) hsucceeds hok

theorem cacheMempoolTransaction (h : Ahead B M paid s) (hdistinct : Distinct B M descriptors)
    (hsub : s.database.descriptors ⊆ descriptors) {coins : List TxOut}
    (hsucceeds : mempoolSucceeds B M s tx = true)
    (hcache : s.cacheMempoolTransaction B M tx = .ok (s', coins)) :
    Ahead B M (paid ++ coins.map fun out => getSpkHash B out.scriptPubkey) s' ∧ Onward s s' := by
  simp only [AddressCacheInner.cacheMempoolTransaction, bind_eq_ok, pure_eq_ok] at hcache
  rcases hcache with ⟨spends, hfind, s1, hspends, r, houts, hr⟩
  cases hr
  rw [mempoolSucceeds, hfind] at hsucceeds
  change (_ && _) = true at hsucceeds
  rw [hspends, Bool.and_eq_true] at hsucceeds
  rcases hsucceeds with ⟨hsucceeds, hsucceeds'⟩
  let hashes (coins : List (Nat × TxOut)) := coins.map fun c => getSpkHash B c.2.scriptPubkey
  -- both loops cache on the address of one output after the other
  have hone : ∀ t t' coins c, Ahead B M (paid ++ hashes coins) t → Onward s t →
      succeeds B M t (getSpkHash B c.2.scriptPubkey) = true →
      AddressCacheInner.cacheUnconfirmed B M tx t c = .ok t' →
      Ahead B M (paid ++ hashes (coins ++ [c])) t' ∧ Onward s t' := by
    intro t t' coins c ht honward hall hok
    rcases ht.cacheUnconfirmed hdistinct (honward.descriptors ▸ hsub) hall hok with ⟨ht', honward'⟩
    refine ⟨?_, honward.trans honward'⟩
    simpa [hashes] using ht'
  have hs1 : Ahead B M (paid ++ hashes spends) s1 ∧ Onward s s1 := by
    have hstart : Ahead B M (paid ++ hashes []) s ∧ Onward s s :=
      ⟨by simpa [hashes] using h, .refl s⟩
    refine allSucceed_inv (I := fun done t => Ahead B M (paid ++ hashes done) t ∧ Onward s t)
      ?_ [] hstart hsucceeds hspends
    exact fun done c t t' ht hall hok => hone t t' done c ht.1 ht.2 hall hok
  have hr : Ahead B M (paid ++ hashes r.2) r.1 ∧ Onward s r.1 := by
    refine allSucceed_inv (I := fun _ (st : AddressCacheInner × List (Nat × TxOut)) =>
      Ahead B M (paid ++ hashes st.2) st.1 ∧ Onward s st.1) ?_ [] hs1 hsucceeds' houts
    intro done output st st' hst hall hok
    unfold cacheUnconfirmedOutput at hok
    split at hok
    next hmem =>
      rcases bind_eq_ok.mp hok with ⟨t, ht, hok⟩
      cases hok
      rw [paysTracked, if_pos hmem, Option.all_some] at hall
      exact hone _ _ _ (output.2, output.1) hst.1 hst.2 hall ht
    · cases hok
      exact hst
  rw [List.map_map]
  exact hr

end Ahead

/-! ## Runs -/

/-- What happens to a wallet, with the script hashes of the payments found so far.  Every batch that
is asked for is derived, and the index behind it fits in 32 bits; a descriptor that cannot be pushed
is refused. -/
inductive Advance : AddressCacheInner × List Hash256 → AddressCacheInner × List Hash256 → Prop
  | push (s : AddressCacheInner) (paid : List Hash256) (descriptor : String) :
      Advance (s, paid) ((pushDescriptor B M descriptor s).2, paid)
  | block {s s' : AddressCacheInner} (paid : List Hash256) {block : Block} {height : Nat}
      {found : List (Transaction × TxOut)} (hsucceeds : blockSucceeds B M s block height = true)
      (hprocess : s.blockProcess B M block height = .ok (s', found)) :
      Advance (s, paid) (s', paid ++ found.map fun p => getSpkHash B p.2.scriptPubkey)
  | mempool {s s' : AddressCacheInner} (paid : List Hash256) {tx : Transaction}
      {coins : List TxOut} (hsucceeds : mempoolSucceeds B M s tx = true)
      (hcache : s.cacheMempoolTransaction B M tx = .ok (s', coins)) :
      Advance (s, paid) (s', paid ++ coins.map fun out => getSpkHash B out.scriptPubkey)
  | derive {s s' : AddressCacheInner} (paid : List Hash256)
      (hfits : horizon s + DERIVATION_COUNT < 2 ^ 32)
      (hderive : deriveAddresses B M s = (.ok (), s')) : Advance (s, paid) (s', paid)
  | restart {s s' : AddressCacheInner} (paid : List Hash256)
      (hnew : AddressCacheInner.new B M s.database = .ok s') : Advance (s, paid) (s', paid)

section Runs

variable {B M} {st st' : AddressCacheInner × List Hash256} {descriptors : List String}

theorem Advance.later (h : Advance B M st st') : Later st.1 st'.1 := by
  have hsame : ∀ s : AddressCacheInner, Later s s := fun s => List.Subset.refl _
  cases h with
  | push s paid descriptor =>
    exact (Later.stable (B := B) s).pushDescriptor
      (fun _ d hs => List.Subset.trans hs (List.subset_append_left _ [d])) descriptor s (hsame s)
  | @block s _ _ _ _ _ _ hprocess =>
    refine foldlM_inv (I := fun _ t => Later s t) _ ?_ (hsame s) (scan_of_blockProcess hprocess)
    exact fun _ item _ t t' _ ht hlook => ht.look hlook
  | @mempool s _ _ _ _ _ hcache =>
    exact cacheMempoolTransaction_ok (P := Later s)
      (fun _ _ _ _ _ _ ht _ hok => ht.cacheTransaction hok) (hsame s) hcache
  | @derive s s' paid _ hderive =>
    have hlater := (Later.stable (B := B) s).deriveAddresses (M := M) s (hsame s)
    rwa [hderive] at hlater
  | restart paid hnew => exact Later.new hnew

theorem Advance.ahead (h : Advance B M st st') (hst : Ahead B M st.2 st.1)
    (hdistinct : Distinct B M descriptors) (hsub : st'.1.database.descriptors ⊆ descriptors) :
    Ahead B M st'.2 st'.1 ∧ horizon st.1 ≤ horizon st'.1 := by
  have hsub' := List.Subset.trans h.later hsub
  cases h with
  | push s paid descriptor => exact hst.pushDescriptor hdistinct descriptor hsub
  | block paid hsucceeds hprocess =>
    rcases hst.blockProcess hdistinct hsub' hsucceeds hprocess with ⟨hahead, honward⟩
    exact ⟨hahead, honward.horizon⟩
  | mempool paid hsucceeds hcache =>
    rcases hst.cacheMempoolTransaction hdistinct hsub' hsucceeds hcache with ⟨hahead, honward⟩
    exact ⟨hahead, honward.horizon⟩
  | derive paid hfits hderive =>
    rcases hst.deriveAddresses hfits hderive with ⟨hahead, -, honward⟩
    exact ⟨hahead, honward.horizon⟩
  | restart paid hnew =>
    rcases hst.reopen with ⟨s', hnew', hdb, hs'⟩
    cases hnew'.symm.trans hnew
    refine ⟨hs', ?_⟩
    rw [horizon, horizon, hdb]

theorem ahead_of_run (h : Relation.ReflTransGen (Advance B M) st st')
    (hst : st.1.database.descriptors ⊆ descriptors → Ahead B M st.2 st.1)
    (hdistinct : Distinct B M descriptors) (hsub : st'.1.database.descriptors ⊆ descriptors) :
    Ahead B M st'.2 st'.1 ∧ horizon st.1 ≤ horizon st'.1 := by
  induction h with
  | refl => exact ⟨hst hsub, Nat.le_refl _⟩
  | tail _ hstep ih =>
    -- the descriptors that are there later include those of now
    rcases ih (List.Subset.trans hstep.later hsub) with ⟨hahead, hle⟩
    rcases hstep.ahead hahead hdistinct hsub with ⟨hahead', hle'⟩
    exact ⟨hahead', hle.trans hle'⟩

/-- In every run of a wallet the horizon never decreases; every wildcard descriptor has its scripts
below the horizon tracked, on every path, and listed under their indexes; and the horizon is more
than the gap limit beyond every script that was paid, so that the next ones of every descriptor are
watched. -/
theorem wallet_watches_ahead {s₀ : AddressCacheInner}
    (hnew : AddressCacheInner.new B M KvDatabase.empty = .ok s₀)
    (hrun : Relation.ReflTransGen (Advance B M) (s₀, []) st)
    (hlater : Relation.ReflTransGen (Advance B M) st st')
    (hdistinct : Distinct B M st'.1.database.descriptors) :
    horizon st.1 ≤ horizon st'.1 ∧
    (∀ d ∈ st'.1.database.descriptors, M.hasWildcard d = .ok true →
      ∃ paths, M.parseAndSplit d = .ok paths ∧ ∀ path ∈ paths, ∀ i < horizon st'.1,
        ∃ script, M.scriptAt path i = .ok script ∧ getSpkHash B script ∈ st'.1.addressMap ∧
          getSpkHash B script ∈ st'.1.scriptSet ∧
          st'.1.derivedIndex.lookup (getSpkHash B script) = some i) ∧
    ∀ hash ∈ st'.2, ∀ d ∈ st'.1.database.descriptors, ∀ path i,
      Derives B M d true path i hash → i + GAP_LIMIT < horizon st'.1 ∧
        ∀ d' ∈ st'.1.database.descriptors, ∀ path' j hash', Derives B M d' true path' j hash' →
          j ≤ i + GAP_LIMIT → hash' ∈ st'.1.addressMap ∧ hash' ∈ st'.1.scriptSet := by
  cases new_empty.symm.trans hnew
  rcases ahead_of_run hlater (fun hsub => (ahead_of_run hrun (fun _ => .empty) hdistinct hsub).1)
    hdistinct (List.Subset.refl _) with ⟨hahead, hhorizon⟩
  obtain ⟨stats, hstats⟩ := Option.isSome_iff_exists.mp hahead.keyed.stats
  have htracked : ∀ d ∈ st'.1.database.descriptors, M.hasWildcard d = .ok true →
      ∃ paths, M.parseAndSplit d = .ok paths ∧ ∀ path ∈ paths, ∀ i < horizon st'.1,
        ∃ script, M.scriptAt path i = .ok script ∧ getSpkHash B script ∈ st'.1.addressMap := by
    intro d hd hw
    rcases hahead.derived.covers d hd stats hstats with ⟨wildcard, hw', paths, hparse, hcovers⟩
    cases hw.symm.trans hw'
    refine ⟨paths, hparse, ?_⟩
    intro path hpath i hi
    refine hcovers path hpath i (Nat.zero_le i) ?_
    rw [if_pos rfl, Nat.zero_add, ← horizon_of_stats hstats]
    exact Nat.lt_of_lt_of_le hi (Nat.le_max_left _ _)
  refine ⟨hhorizon, ?_, ?_⟩
  · intro d hd hw
    rcases htracked d hd hw with ⟨paths, hparse, hpaths⟩
    refine ⟨paths, hparse, ?_⟩
    intro path hpath i hi
    rcases hpaths path hpath i hi with ⟨script, hat, hmem⟩
    refine ⟨script, hat, hmem, (hahead.keyed.tracked _).mpr hmem, ?_⟩
    exact hahead.lookup hdistinct (List.Subset.refl _) hd hi
      ⟨hw, ⟨paths, hparse, hpath⟩, ⟨script, hat, rfl⟩, fun hfalse => nomatch hfalse⟩
  · intro hash hmem d hd path i hderives
    have hgap := hahead.gap hash hmem d hd path i hderives
    refine ⟨hgap, ?_⟩
    intro d' hd' path' j hash' hderives' hj
    rcases htracked d' hd' hderives'.parsed with ⟨paths, hparse, hpaths⟩
    rcases hderives'.split with ⟨paths', hparse', hpath'⟩
    cases hparse.symm.trans hparse'
    rcases hderives'.script with ⟨script, hat, rfl⟩
    rcases hpaths path' hpath' j (by omega) with ⟨script', hat', hmem'⟩
    cases hat.symm.trans hat'
    exact ⟨hmem', (hahead.keyed.tracked _).mpr hmem'⟩

end Runs

namespace Sample

open Bitcoin

/-- Descriptors with one path, that can be derived for two batches. -/
def batches : Miniscript where
  Descriptor := Unit
  hasWildcard _ := .ok true
  parseAndSplit _ := .ok [()]
  scriptAt _ index := if index < 200 then .ok [UInt8.ofNat index] else .error "index out of range"

def indexOf (hash : Hash256) : Nat := (reverseBytes hash).toNat % 65537 - 1

theorem indexOf_getSpkHash : ∀ index < 200,
    indexOf (getSpkHash sample [UInt8.ofNat index]) = index := by
  decide +kernel

def farPayment : Block := block [coinbase 1 [output 5 99]]

def watching : AddressCacheInner := (pushDescriptor sample batches "wpkh" emptyCache).2

theorem payment_found : blockSucceeds sample batches watching farPayment 1 = true ∧
    ((watching.blockProcess sample batches farPayment 1).toOption.any fun r =>
      decide (r.2 = [(coinbase 1 [output 5 99], output 5 99)] ∧
        r.1.database.descriptors = ["wpkh"])) = true := by
  decide +kernel

theorem distinct_batches : Distinct sample batches ["wpkh"] := by
  intro d hd d' hd' w w' path path' i i' hash hderives hderives'
  have hindex : ∀ (path : Unit) i hash, Derives sample batches "wpkh" true path i hash →
      indexOf hash = i := by
    rintro path i hash ⟨-, -, ⟨script, hat, rfl⟩, -⟩
    change (if i < 200 then Except.ok _ else _) = _ at hat
    split at hat
    next hlt =>
      cases hat
      exact indexOf_getSpkHash i hlt
    · cases hat
  obtain rfl := List.mem_singleton.mp hd
  obtain rfl := List.mem_singleton.mp hd'
  cases hderives.parsed
  cases hderives'.parsed
  exact ⟨rfl, rfl, (hindex path i hash hderives).symm.trans (hindex path' i' hash hderives')⟩

theorem derives_batches {i : Nat} (hi : i < 200) : Derives sample batches "wpkh" true () i
    (getSpkHash sample [UInt8.ofNat i]) :=
  ⟨rfl, ⟨[()], rfl, List.mem_singleton.mpr rfl⟩, ⟨_, if_pos hi, rfl⟩, fun hfalse => nomatch hfalse⟩

end Sample

open Sample Bitcoin in
/-- A payment derives the second batch, and the wallet is opened again. -/
theorem wallet_watches_ahead_sample : ∃ s paid,
    Relation.ReflTransGen (Advance sample batches) (emptyCache, []) (s, paid) ∧
    getSpkHash sample [99] ∈ paid ∧ 99 + GAP_LIMIT < horizon s ∧
    getSpkHash sample [119] ∈ s.scriptSet := by
  rcases payment_found with ⟨hsucceeds, hfound⟩
  rcases exists_of_any hfound with ⟨⟨s1, found⟩, hprocess, hcheck⟩
  rcases of_decide_eq_true hcheck with ⟨rfl, hdescriptors⟩
  have hpush := Relation.ReflTransGen.single (Advance.push (B := sample) (M := batches)
    emptyCache [] "wpkh")
  have hpaid := hpush.tail (Advance.block [] hsucceeds hprocess)
  have hdistinct : Distinct sample batches s1.database.descriptors :=
    hdescriptors ▸ distinct_batches
  rcases (ahead_of_run hpaid (fun _ => .empty) hdistinct (List.Subset.refl _)).1.reopen with
    ⟨s, hnew, hdb, -⟩
  have hrun := hpaid.tail (Advance.restart _ hnew)
  have hdistinct' : Distinct sample batches s.database.descriptors := by rwa [hdb]
  have hmem : "wpkh" ∈ s.database.descriptors := by
    rw [hdb, hdescriptors]
    exact List.mem_singleton.mpr rfl
  rcases wallet_watches_ahead new_empty hrun .refl hdistinct' with ⟨-, -, hgap⟩
  rcases hgap _ (List.mem_singleton.mpr rfl) "wpkh" hmem () 99 (derives_batches (by decide)) with
    ⟨hlt, hnext⟩
  exact ⟨s, _, hrun, List.mem_singleton.mpr rfl, hlt,
    (hnext "wpkh" hmem () 119 _ (derives_batches (by decide)) (by decide)).2⟩

def deriveTimes (s : AddressCacheInner) : Nat → AddressCacheInner
  | 0 => s
  | n + 1 => (deriveAddresses B M (deriveTimes s n)).2

/-- Without a descriptor every batch succeeds, until the index wraps around. -/
theorem deriveTimes_empty (n : Nat) : (deriveAddresses B M (deriveTimes B M emptyCache n)).1 = .ok () ∧
    deriveTimes B M emptyCache n = { emptyCache with
      database := KvDatabase.empty.saveStats ⟨.ofNat (n * DERIVATION_COUNT)⟩ } := by
  induction n with
  | zero => exact ⟨rfl, rfl⟩
  | succ n ih =>
    have hnext : deriveTimes B M emptyCache (n + 1) = { emptyCache with
        database := KvDatabase.empty.saveStats ⟨.ofNat ((n + 1) * DERIVATION_COUNT)⟩ } := by
      rw [deriveTimes, ih.2, Nat.succ_mul, UInt32.ofNat_add]
      rfl
    refine ⟨?_, hnext⟩
    rw [hnext]
    rfl

open Sample in
/-- On a wallet without descriptors the 42949673rd batch moves the horizon from 4294967200 to 4. -/
theorem wallet_horizon_wraps :
    AddressCacheInner.new Bitcoin.sample batches KvDatabase.empty = .ok emptyCache ∧
    (∀ n, (deriveAddresses Bitcoin.sample batches
      (deriveTimes Bitcoin.sample batches emptyCache n)).1 = .ok ()) ∧
    horizon (deriveTimes Bitcoin.sample batches emptyCache 42949672) = 4294967200 ∧
    horizon (deriveTimes Bitcoin.sample batches emptyCache 42949673) = 4 := by
  refine ⟨rfl, fun n => (deriveTimes_empty _ _ n).1, ?_, ?_⟩
  all_goals
    rw [(deriveTimes_empty _ _ _).2]
    rfl

end Floresta.Wallet
