import Floresta.Wallet.History

/-!
# Persistence — the wallet that is opened again

`AddressCacheInner::new` rebuilds the cache from the database.  The cache it rebuilds is the one that
wrote the database as long as every change of an address was written back (`Synced`), and an address
is written back only when its list of transactions grows.  The descriptors are derived again up to
the stored index, which tracks nothing new (`Derived`).
-/

namespace Floresta.Wallet

open Fallible AddressCacheInner Ledger

variable (B : Bitcoin) (M : Miniscript) {hash : Hash256} {a : CachedAddress} {scripts : List Script}
  {script : Script}
variable {derived : List Script} {txid : Txid} {index value : Nat} {tx : Transaction}
  {isSpend : Bool}

/-! ## Derived scripts -/

/-- The indexes `start` to `start + count - 1` of every path have scripts that are tracked. -/
def Covers (s : AddressCacheInner) (descriptor : String) (start count : Nat) : Prop :=
  ∃ paths, M.parseAndSplit descriptor = .ok paths ∧ ∀ path ∈ paths, ∀ i, start ≤ i →
    i < start + count → ∃ script, M.scriptAt path i = .ok script ∧ getSpkHash B script ∈ s.addressMap

/-- The descriptor is derived up to the index `n`, or once if it has no wildcard. -/
def DerivedTo (s : AddressCacheInner) (descriptor : String) (n : Nat) : Prop :=
  ∃ wildcard, M.hasWildcard descriptor = .ok wildcard ∧
    Covers B M s descriptor 0 (if wildcard then n else 1)

section Derive

variable {B M} {s s' : AddressCacheInner} {descriptor : String} {start count : Nat}

theorem mem_derive
    (h : M.deriveAddressesFromDescriptor descriptor start count = .ok scripts)
    (hmem : script ∈ scripts) : ∃ paths, M.parseAndSplit descriptor = .ok paths ∧
      ∃ path ∈ paths, ∃ i, start ≤ i ∧ i < start + count ∧ M.scriptAt path i = .ok script := by
  simp only [Miniscript.deriveAddressesFromDescriptor, bind_eq_ok, pure_eq_ok] at h
  rcases h with ⟨paths, hparse, lists, hlists, rfl⟩
  rcases List.mem_flatten.mp hmem with ⟨list, hlist, hscript⟩
  rcases mem_of_mapM_eq_ok hlists hlist with ⟨path, hpath, hderive⟩
  rcases mem_of_mapM_eq_ok hderive hscript with ⟨i, hi, hat⟩
  rw [List.mem_range'_1] at hi
  exact ⟨paths, hparse, path, hpath, i, hi.1, by omega, hat⟩

theorem derive_paths (hfits : start + count < 2 ^ 32)
    (h : M.deriveAddressesFromDescriptor descriptor start count = .ok scripts) :
    ∃ paths, M.parseAndSplit descriptor = .ok paths ∧ ∀ path ∈ paths, ∀ i, start ≤ i →
      i < start + count → ∃ script ∈ scripts, M.scriptAt path i = .ok script := by
  simp only [Miniscript.deriveAddressesFromDescriptor, bind_eq_ok, pure_eq_ok] at h
  rcases h with ⟨paths, hparse, lists, hlists, rfl⟩
  refine ⟨paths, hparse, ?_⟩
  intro path hpath i hi hi'
  rcases exists_of_mapM_eq_ok hlists hpath with ⟨list, hlist, hderive⟩
  rcases exists_of_mapM_eq_ok hderive (List.mem_range'_1.mpr ⟨hi, by omega⟩) with
    ⟨script, hscript, hat⟩
  exact ⟨script, List.mem_flatten.mpr ⟨list, hlist, hscript⟩, hat⟩

theorem derive_isOk {paths : List M.Descriptor} (hparse : M.parseAndSplit descriptor = .ok paths)
    (h : ∀ path ∈ paths, ∀ i, start ≤ i → i < start + count →
      ∃ script, M.scriptAt path i = .ok script) :
    ∃ scripts, M.deriveAddressesFromDescriptor descriptor start count = .ok scripts := by
  have hlists : ∃ lists, paths.mapM (fun desc =>
      M.deriveAddressesFromParsedDescriptor desc start count) = .ok lists := by
    refine mapM_isOk fun path hpath => mapM_isOk fun i hi => ?_
    rw [List.mem_range'_1] at hi
    exact h path hpath i hi.1 (by omega)
  rcases hlists with ⟨lists, hlists⟩
  refine ⟨lists.flatten, ?_⟩
  simp only [Miniscript.deriveAddressesFromDescriptor, bind_eq_ok, pure_eq_ok]
  exact ⟨paths, hparse, lists, hlists, rfl⟩

theorem Covers.mono (h : Covers B M s descriptor start count)
    (hgrow : ∀ hash, hash ∈ s.addressMap → hash ∈ s'.addressMap) :
    Covers B M s' descriptor start count := by
  rcases h with ⟨paths, hparse, h⟩
  refine ⟨paths, hparse, ?_⟩
  intro path hpath i hi hi'
  rcases h path hpath i hi hi' with ⟨script, hat, hmem⟩
  exact ⟨script, hat, hgrow _ hmem⟩

theorem Covers.append {more : Nat} (h : Covers B M s descriptor start count)
    (h' : Covers B M s descriptor (start + count) more) :
    Covers B M s descriptor start (count + more) := by
  rcases h with ⟨paths, hparse, h⟩
  rcases h' with ⟨paths', hparse', h'⟩
  cases hparse.symm.trans hparse'
  refine ⟨paths, hparse, ?_⟩
  intro path hpath i hi hi'
  by_cases hlt : i < start + count
  · exact h path hpath i hi hlt
  · exact h' path hpath i (by omega) (by omega)

theorem DerivedTo.mono {n n' : Nat} (h : DerivedTo B M s descriptor n) (hle : n' ≤ n)
    (hgrow : ∀ hash, hash ∈ s.addressMap → hash ∈ s'.addressMap) : DerivedTo B M s' descriptor n' := by
  rcases h with ⟨wildcard, hwildcard, paths, hparse, h⟩
  refine ⟨wildcard, hwildcard, (show Covers B M s descriptor 0 _ from
    ⟨paths, hparse, fun path hpath i hi hi' => h path hpath i hi ?_⟩).mono hgrow⟩
  cases wildcard with
  | true => exact Nat.lt_of_lt_of_le hi' (Nat.add_le_add_left hle _)
  | false => exact hi'

/-! ## What deriving a range does -/

theorem mem_cacheAddress (s : AddressCacheInner) (script : Script) :
    getSpkHash B script ∈ (s.cacheAddress B script).addressMap := by
  unfold AddressCacheInner.cacheAddress
  dsimp only
  split
  · assumption
  · exact Finmap.mem_insert.mpr (.inl rfl)

theorem mem_cacheAddress_of_mem (h : hash ∈ s.addressMap) (script : Script) :
    hash ∈ (s.cacheAddress B script).addressMap := by
  unfold AddressCacheInner.cacheAddress
  dsimp only
  split
  · exact h
  · exact Finmap.mem_insert.mpr (.inr h)

theorem cacheAddress_of_mem (h : getSpkHash B script ∈ s.addressMap) :
    s.cacheAddress B script = s := by
  unfold AddressCacheInner.cacheAddress
  exact if_pos h

theorem cacheFixed_eq (scripts : List Script) (s : AddressCacheInner) :
    cacheFixed B scripts s = (.ok (), scripts.foldl (fun s script => s.cacheAddress B script) s) :=
  Prog.forM_modify _ _ _

/-- A script of a batch is numbered and tracked. -/
def cacheNumbered (B : Bitcoin) (start count : Nat) (s : AddressCacheInner) (p : Script × Nat) :
    AddressCacheInner :=
  (s.setDerivedIndex (getSpkHash B p.1) (start + p.2 % count)).cacheAddress B p.1

theorem cacheDerived_eq (start count : Nat) (scripts : List Script) (s : AddressCacheInner) :
    cacheDerived B start count scripts s =
      (.ok (), scripts.zipIdx.foldl (cacheNumbered B start count) s) :=
  Prog.forM_modify (fun p s => cacheNumbered B start count s p) _ _

theorem mem_foldl_tracked {γ : Type} {step : AddressCacheInner → γ → AddressCacheInner}
    (hash : γ → Hash256) (hnew : ∀ s c, hash c ∈ (step s c).addressMap)
    (hold : ∀ s c h, h ∈ s.addressMap → h ∈ (step s c).addressMap) (l : List γ)
    (s : AddressCacheInner) : ∀ c ∈ l, hash c ∈ (l.foldl step s).addressMap := by
  have hkeep : ∀ (l : List γ) (s : AddressCacheInner) h, h ∈ s.addressMap →
      h ∈ (l.foldl step s).addressMap := by
    intro l
    induction l with
    | nil => exact fun s h hh => hh
    | cons c l ih => exact fun s h hh => ih _ h (hold s c h hh)
  induction l generalizing s with
  | nil => exact fun c hc => absurd hc List.not_mem_nil
  | cons c l ih =>
    intro c' hc'
    rcases List.mem_cons.mp hc' with rfl | hc'
    · exact hkeep l _ _ (hnew s c')
    · exact ih (step s c) c' hc'

theorem mem_foldl_cacheAddress (scripts : List Script) (s : AddressCacheInner)
    (h : script ∈ scripts) : getSpkHash B script ∈
      (scripts.foldl (fun s script => s.cacheAddress B script) s).addressMap :=
  mem_foldl_tracked (getSpkHash B) (fun s c => mem_cacheAddress s c)
    (fun _ c _ hh => mem_cacheAddress_of_mem hh c) scripts s script h

theorem mem_foldl_cacheNumbered (start count : Nat) (scripts : List Script) (s : AddressCacheInner)
    (h : script ∈ scripts) : getSpkHash B script ∈
      (scripts.zipIdx.foldl (cacheNumbered B start count) s).addressMap := by
  rcases List.mem_iff_getElem?.mp h with ⟨i, hi⟩
  exact mem_foldl_tracked (fun p : Script × Nat => getSpkHash B p.1)
    (fun s p => mem_cacheAddress _ p.1)
    (fun s p h hh => mem_cacheAddress_of_mem (s := s.setDerivedIndex _ _) hh p.1) scripts.zipIdx s
    (script, i) (List.mem_zipIdx_iff_getElem?.mpr hi)

theorem deriveDescriptor_cases (start count : Nat) (derived : List Script) (descriptor : String)
    (s : AddressCacheInner) :
    (∃ e, deriveDescriptor B M start count derived descriptor s = (.error e, s)) ∨
    (∃ scripts, M.hasWildcard descriptor = .ok true ∧
      M.deriveAddressesFromDescriptor descriptor start count = .ok scripts ∧
      deriveDescriptor B M start count derived descriptor s =
        (.ok (derived ++ scripts), scripts.zipIdx.foldl (cacheNumbered B start count) s)) ∨
    ∃ scripts, M.hasWildcard descriptor = .ok false ∧
      M.deriveAddressesFromDescriptor descriptor INDEX_INITIAL 1 = .ok scripts ∧
      deriveDescriptor B M start count derived descriptor s =
        (.ok (derived ++ scripts), scripts.foldl (fun s script => s.cacheAddress B script) s) := by
  unfold deriveDescriptor
  rw [Prog.bind_apply]
  cases hw : M.hasWildcard descriptor with
  | error e => exact .inl ⟨e, rfl⟩
  | ok wildcard =>
  cases wildcard with
  | true =>
    dsimp only [Prog.lift]
    rw [if_pos rfl, Prog.bind_apply]
    cases hscripts : M.deriveAddressesFromDescriptor descriptor start count with
    | error e => exact .inl ⟨e, rfl⟩
    | ok scripts =>
      refine .inr (.inl ⟨scripts, rfl, rfl, ?_⟩)
      dsimp only [Prog.lift]
      rw [Prog.bind_apply, cacheDerived_eq]
      rfl
  | false =>
    dsimp only [Prog.lift]
    rw [if_neg Bool.false_ne_true, Prog.bind_apply]
    cases hscripts : M.deriveAddressesFromDescriptor descriptor INDEX_INITIAL 1 with
    | error e => exact .inl ⟨e, rfl⟩
    | ok scripts =>
      refine .inr (.inr ⟨scripts, rfl, rfl, ?_⟩)
      dsimp only [Prog.lift]
      rw [Prog.bind_apply, cacheFixed_eq]
      rfl

theorem deriveDescriptor_ok {derived' : List Script} (hfits : start + count < 2 ^ 32)
    (h : deriveDescriptor B M start count derived descriptor s = (.ok derived', s')) :
    ∃ wildcard, M.hasWildcard descriptor = .ok wildcard ∧
      Covers B M s' descriptor (if wildcard then start else 0) (if wildcard then count else 1) := by
  rcases deriveDescriptor_cases start count derived descriptor s with
    ⟨e, heq⟩ | ⟨scripts, hw, hscripts, heq⟩ | ⟨scripts, hw, hscripts, heq⟩
  · cases heq.symm.trans h
  · cases heq.symm.trans h
    rcases derive_paths hfits hscripts with ⟨paths, hparse, hpaths⟩
    refine ⟨true, hw, paths, hparse, fun path hpath i hi hi' => ?_⟩
    rcases hpaths path hpath i hi hi' with ⟨script, hscript, hat⟩
    exact ⟨script, hat, mem_foldl_cacheNumbered start count scripts s hscript⟩
  · cases heq.symm.trans h
    rcases derive_paths (by decide) hscripts with ⟨paths, hparse, hpaths⟩
    refine ⟨false, hw, paths, hparse, fun path hpath i hi hi' => ?_⟩
    rcases hpaths path hpath i hi hi' with ⟨script, hscript, hat⟩
    exact ⟨script, hat, mem_foldl_cacheAddress scripts s hscript⟩

theorem Grows.mem (h : Grows s s') (hmem : hash ∈ s.addressMap) :
    hash ∈ s'.addressMap := by
  rcases Finmap.mem_iff.mp hmem with ⟨a, ha⟩
  exact Finmap.mem_of_lookup_eq_some (h.addressMap hash a ha)

theorem deriveRange_ok {descriptors : List String} (hfits : start + count < 2 ^ 32)
    (h : deriveRange B M descriptors start count s = (.ok derived, s')) :
    ∀ d ∈ descriptors, ∃ wildcard, M.hasWildcard d = .ok wildcard ∧
      Covers B M s' d (if wildcard then start else 0) (if wildcard then count else 1) := by
  unfold deriveRange at h
  generalize ([] : List Script) = acc at h
  induction descriptors generalizing s acc with
  | nil => exact fun d hd => absurd hd List.not_mem_nil
  | cons d ds ih =>
    rw [List.foldlM_cons] at h
    rcases Prog.bind_eq_ok_iff.mp h with ⟨acc', t, hd, hrest⟩
    intro d' hd'
    rcases List.mem_cons.mp hd' with rfl | hd'
    · rcases deriveDescriptor_ok hfits hd with ⟨wildcard, hw, hcovers⟩
      refine ⟨wildcard, hw, hcovers.mono fun hash hmem => ?_⟩
      have hgrows : Grows t s' := by
        have hstays := Prog.Stays.foldlM (S := Grows t) (fun derived descriptor =>
          (Grows.stable (B := B) t).toTracking.deriveDescriptor (M := M) start count derived
            descriptor) ds acc'
        have := hstays t (Grows.refl t)
        rwa [hrest] at this
      exact hgrows.mem hmem
    · exact ih acc' hrest d' hd'

theorem foldl_cacheAddress_of_mem
    (h : ∀ script ∈ scripts, getSpkHash B script ∈ s.addressMap) :
    scripts.foldl (fun s script => s.cacheAddress B script) s = s := by
  induction scripts with
  | nil => rfl
  | cons script scripts ih =>
    rw [List.foldl_cons, cacheAddress_of_mem (h script List.mem_cons_self)]
    exact ih fun script' h' => h script' (List.mem_cons_of_mem _ h')

theorem foldl_cacheNumbered_of_mem (start count : Nat) {scripts : List (Script × Nat)}
    (h : ∀ p ∈ scripts, getSpkHash B p.1 ∈ s.addressMap) :
    ∃ index, scripts.foldl (cacheNumbered B start count) s = { s with derivedIndex := index } := by
  induction scripts generalizing s with
  | nil => exact ⟨s.derivedIndex, rfl⟩
  | cons p scripts ih =>
    rcases ih (s := s.setDerivedIndex (getSpkHash B p.1) (start + p.2 % count))
      fun p' h' => h p' (List.mem_cons_of_mem _ h') with ⟨index, hindex⟩
    rw [List.foldl_cons, cacheNumbered, cacheAddress_of_mem (s := s.setDerivedIndex _ _)
      (h p List.mem_cons_self)]
    exact ⟨index, hindex⟩

theorem deriveDescriptor_quiet {wildcard : Bool} (hw : M.hasWildcard descriptor = .ok wildcard)
    (h : Covers B M s descriptor (if wildcard then start else 0) (if wildcard then count else 1))
    (derived : List Script) : ∃ derived' index,
      deriveDescriptor B M start count derived descriptor s =
        (.ok derived', { s with derivedIndex := index }) := by
  rcases h with ⟨paths, hparse, hpaths⟩
  rcases derive_isOk hparse fun path hpath i hi hi' => by
    rcases hpaths path hpath i hi hi' with ⟨script, hat, -⟩
    exact ⟨script, hat⟩ with ⟨scripts, hscripts⟩
  have htracked : ∀ script ∈ scripts, getSpkHash B script ∈ s.addressMap := by
    intro script hscript
    rcases mem_derive hscripts hscript with ⟨paths', hparse', path, hpath, i, hi, hi', hat⟩
    cases hparse.symm.trans hparse'
    rcases hpaths path hpath i hi hi' with ⟨script', hat', hmem⟩
    cases hat.symm.trans hat'
    exact hmem
  cases wildcard with
  | true =>
    have hmem : ∀ p ∈ scripts.zipIdx, getSpkHash B p.1 ∈ s.addressMap := by
      intro p hp
      exact htracked p.1 (List.fst_mem_of_mem_zipIdx hp)
    rcases foldl_cacheNumbered_of_mem start count hmem with ⟨index, hindex⟩
    refine ⟨derived ++ scripts, index, ?_⟩
    unfold deriveDescriptor
    refine Prog.bind_eq_ok_iff.mpr ⟨true, s, by rw [hw]; rfl, ?_⟩
    refine Prog.bind_eq_ok_iff.mpr ⟨scripts, s, congrArg (·, s) hscripts, ?_⟩
    refine Prog.bind_eq_ok_iff.mpr ⟨(), { s with derivedIndex := index }, ?_, rfl⟩
    rw [cacheDerived_eq, hindex]
  | false =>
    refine ⟨derived ++ scripts, s.derivedIndex, ?_⟩
    unfold deriveDescriptor
    refine Prog.bind_eq_ok_iff.mpr ⟨false, s, by rw [hw]; rfl, ?_⟩
    refine Prog.bind_eq_ok_iff.mpr ⟨scripts, s, congrArg (·, s) hscripts, ?_⟩
    refine Prog.bind_eq_ok_iff.mpr ⟨(), s, ?_, rfl⟩
    rw [cacheFixed_eq, foldl_cacheAddress_of_mem htracked]

theorem deriveRange_quiet {descriptors : List String}
    (h : ∀ d ∈ descriptors, ∃ wildcard, M.hasWildcard d = .ok wildcard ∧
      Covers B M s d (if wildcard then start else 0) (if wildcard then count else 1)) :
    ∃ derived index, deriveRange B M descriptors start count s =
      (.ok derived, { s with derivedIndex := index }) := by
  unfold deriveRange
  generalize ([] : List Script) = acc
  induction descriptors generalizing s acc with
  | nil => exact ⟨acc, s.derivedIndex, rfl⟩
  | cons d ds ih =>
    rcases h d List.mem_cons_self with ⟨wildcard, hw, hcovers⟩
    rcases deriveDescriptor_quiet hw hcovers acc with ⟨acc', index, hd⟩
    rw [List.foldlM_cons]
    rcases ih (s := { s with derivedIndex := index })
      (fun d' hd' => h d' (List.mem_cons_of_mem _ hd')) acc' with ⟨derived, index', hrest⟩
    exact ⟨derived, index', Prog.bind_eq_ok_iff.mpr ⟨acc', _, hd, hrest⟩⟩

end Derive

/-! ## Stored descriptors stay derived -/

/-- Every stored descriptor is derived up to the stored index, and for a first batch. -/
structure Derived (s : AddressCacheInner) : Prop where
  covers : ∀ d ∈ s.database.descriptors, ∀ stats, s.database.stats = some stats →
    DerivedTo B M s d (max stats.derivationIndex.toNat DERIVATION_COUNT)

/-- The second cache has the descriptors and stats of the first, and tracks at least as much. -/
structure Extends (s s' : AddressCacheInner) : Prop where
  descriptors : s'.database.descriptors = s.database.descriptors
  stats : s'.database.stats = s.database.stats
  addressMap : ∀ hash, hash ∈ s.addressMap → hash ∈ s'.addressMap

namespace Extends

variable {B} {s s' : AddressCacheInner}

theorem refl (s : AddressCacheInner) : Extends s s := ⟨rfl, rfl, fun _ h => h⟩

theorem cacheAddress (h : Extends s s') (script : Script) :
    Extends s (s'.cacheAddress B script) := by
  have hmem : ∀ hash, hash ∈ s.addressMap → hash ∈ (s'.cacheAddress B script).addressMap :=
    fun hash hh => mem_cacheAddress_of_mem (h.addressMap hash hh) script
  unfold AddressCacheInner.cacheAddress at hmem ⊢
  dsimp only at hmem ⊢
  split
  · exact h
  next hnew =>
    rw [if_neg hnew] at hmem
    exact ⟨h.descriptors, h.stats, hmem⟩

theorem tracking (s : AddressCacheInner) : Tracking B (Extends s) where
  cacheAddress _ script h := h.cacheAddress script
  derivedIndex _ _ h := ⟨h.descriptors, h.stats, h.addressMap⟩

theorem of_deriveRange {M : Miniscript} {batch : List String} {start count : Nat}
    {r : Except String (List Script)} (hrun : deriveRange B M batch start count s = (r, s')) :
    Extends s s' := by
  have hext := (tracking (B := B) s).deriveRange (M := M) batch start count s (refl s)
  rwa [hrun] at hext

end Extends

namespace Derived

variable {B M} {s s' : AddressCacheInner}

theorem mono (h : Derived B M s) (hext : Extends s s') : Derived B M s' := by
  constructor
  rw [hext.descriptors, hext.stats]
  intro d hd stats hstats
  exact (h.covers d hd stats hstats).mono (Nat.le_refl _) hext.addressMap

theorem getStats_none (h : s.database.stats = none) :
    getStats s = (.error .databaseError, s) := by
  unfold getStats
  rw [Prog.bind_apply]
  simp only [Prog.read, h, okOr]
  rfl

theorem getStats_some {stats : Stats} (h : s.database.stats = some stats) :
    getStats s = (.ok stats, s) := by
  unfold getStats
  rw [Prog.bind_apply]
  simp only [Prog.read, h, okOr]
  rfl

theorem deriveRangeOrFail_eq (descriptors : List String) (start count : Nat)
    (s : AddressCacheInner) :
    deriveRangeOrFail B M descriptors start count s =
      ((deriveRange B M descriptors start count s).1.mapError .invalidDescriptor,
        (deriveRange B M descriptors start count s).2) := rfl

theorem deriveAddresses_cases (s : AddressCacheInner) :
    AddressCacheInner.deriveAddresses B M s = (.error .databaseError, s) ∨
    ∃ stats t, s.database.stats = some stats ∧
      ((∃ e, deriveRange B M s.database.descriptors stats.derivationIndex.toNat DERIVATION_COUNT s =
          (.error e, t) ∧
        AddressCacheInner.deriveAddresses B M s = (.error (.invalidDescriptor e), t)) ∨
      ∃ derived, deriveRange B M s.database.descriptors stats.derivationIndex.toNat
          DERIVATION_COUNT s = (.ok derived, t) ∧
        AddressCacheInner.deriveAddresses B M s = (.ok (), { t with
          database := t.database.saveStats ⟨stats.derivationIndex + .ofNat DERIVATION_COUNT⟩ })) := by
  unfold AddressCacheInner.deriveAddresses
  rw [Prog.bind_apply]
  cases hstats : s.database.stats with
  | none =>
    rw [getStats_none hstats]
    exact .inl rfl
  | some stats =>
    rw [getStats_some hstats]
    dsimp only
    rw [Prog.bind_apply]
    dsimp only [Prog.read]
    rw [Prog.bind_apply, deriveRangeOrFail_eq]
    rcases hrun : deriveRange B M s.database.descriptors stats.derivationIndex.toNat
      DERIVATION_COUNT s with ⟨e | derived, t⟩
    · exact .inr ⟨stats, t, rfl, .inl ⟨e, hrun, rfl⟩⟩
    · exact .inr ⟨stats, t, rfl, .inr ⟨derived, hrun, rfl⟩⟩

theorem pushDescriptor_cases (descriptor : String) (s : AddressCacheInner) :
    (AddressCacheInner.pushDescriptor B M descriptor s).2 = s ∨
    ∃ stats derived t, s.database.stats = some stats ∧
      deriveRange B M [descriptor] INDEX_INITIAL (max stats.derivationIndex.toNat DERIVATION_COUNT) s =
        (.ok derived, t) ∧
      (AddressCacheInner.pushDescriptor B M descriptor s).2 = { t with
        database := (t.database.saveDescriptor descriptor).saveStats
          ⟨.ofNat (max stats.derivationIndex.toNat DERIVATION_COUNT)⟩ } := by
  unfold AddressCacheInner.pushDescriptor
  rw [Prog.bind_apply]
  dsimp only [Prog.read]
  by_cases hcached : descriptor ∈ s.database.descriptors
  · rw [decide_eq_true hcached]
    exact .inl rfl
  rw [decide_eq_false hcached, if_neg Bool.false_ne_true, Prog.bind_apply]
  cases hstats : s.database.stats with
  | none =>
    rw [getStats_none hstats]
    exact .inl rfl
  | some stats =>
    rw [getStats_some hstats]
    dsimp only
    rw [Prog.bind_apply, deriveRangeOrFail_eq]
    generalize hrun : deriveRange B M [descriptor] INDEX_INITIAL
      (max stats.derivationIndex.toNat DERIVATION_COUNT) s = r
    rcases r with ⟨e | derived, t⟩
    · -- a descriptor that fails has tracked nothing
      refine .inl ?_
      unfold deriveRange at hrun
      rw [List.foldlM_cons, Prog.bind_apply] at hrun
      rcases deriveDescriptor_cases INDEX_INITIAL (max stats.derivationIndex.toNat DERIVATION_COUNT) []
        descriptor s with ⟨e', heq⟩ | ⟨scripts, -, -, heq⟩ | ⟨scripts, -, -, heq⟩
      · rw [heq] at hrun
        exact (congrArg Prod.snd hrun).symm
      all_goals
        rw [heq] at hrun
        cases hrun
    · exact .inr ⟨stats, derived, t, rfl, hrun, rfl⟩

theorem toNat_add_count (n : UInt32) :
    (n + .ofNat DERIVATION_COUNT).toNat = (n.toNat + DERIVATION_COUNT) % 2 ^ 32 :=
  UInt32.toNat_add n _

/-- The horizon of a pushed descriptor, which is an index again. -/
theorem max_count_lt (n : UInt32) : max n.toNat DERIVATION_COUNT < 2 ^ 32 :=
  Nat.max_lt.mpr ⟨n.toNat_lt, by decide⟩

/-- A batch that was derived moves the index of every descriptor; when the index wraps around, it
falls into the first batch. -/
theorem deriveAddresses (h : Derived B M s) : Derived B M (deriveAddresses B M s).2 := by
  rcases deriveAddresses_cases (B := B) (M := M) s with
    heq | ⟨stats, t, hstats, ⟨e, hrun, heq⟩ | ⟨derived, hrun, heq⟩⟩
  · rw [heq]
    exact h
  · rw [heq]
    exact h.mono (.of_deriveRange hrun)
  have hext := Extends.of_deriveRange hrun
  have hlt := stats.derivationIndex.toNat_lt
  rw [heq]
  constructor
  intro d hd stats' hstats'
  cases hstats'
  have hd' : d ∈ s.database.descriptors := hext.descriptors ▸ hd
  have hold := h.covers d hd' stats hstats
  rw [toNat_add_count]
  by_cases hfits : stats.derivationIndex.toNat + DERIVATION_COUNT < 2 ^ 32
  · rw [Nat.mod_eq_of_lt hfits, Nat.max_eq_left (Nat.le_add_left _ _)]
    rcases hold.mono (Nat.le_max_left _ _) hext.addressMap with ⟨wildcard, hw, hcovers⟩
    rcases deriveRange_ok hfits hrun d hd' with ⟨wildcard', hw', hnew⟩
    cases hw.symm.trans hw'
    refine ⟨wildcard, hw, ?_⟩
    cases wildcard with
    | true =>
      have hnew' : Covers B M t d (0 + stats.derivationIndex.toNat) DERIVATION_COUNT := by
        simpa using hnew
      exact (Covers.append hcovers hnew').mono fun _ hmem => hmem
    | false => exact hcovers.mono fun _ hmem => hmem
  · refine hold.mono ?_ hext.addressMap
    have hcount : DERIVATION_COUNT = 100 := rfl
    omega

theorem maybeDeriveAddresses (h : Derived B M s)
    (hok : s.maybeDeriveAddresses B M hash = .ok s') : Derived B M s' := by
  unfold AddressCacheInner.maybeDeriveAddresses at hok
  split at hok
  · cases hok
    exact h
  · rcases bind_eq_ok.mp hok with ⟨stats, -, hok⟩
    split at hok
    · cases hok
      exact h.deriveAddresses
    · cases hok
      exact h

theorem pushDescriptor (h : Derived B M s) (descriptor : String) :
    Derived B M (pushDescriptor B M descriptor s).2 := by
  rcases pushDescriptor_cases (B := B) (M := M) descriptor s with
    heq | ⟨stats, derived, t, hstats, hrun, heq⟩
  · rw [heq]
    exact h
  · have hfits := max_count_lt stats.derivationIndex
    have hrange := deriveRange_ok ((Nat.zero_add _).symm ▸ hfits) hrun descriptor
      (List.mem_singleton.mpr rfl)
    have hext := Extends.of_deriveRange hrun
    rw [heq]
    constructor
    intro d hd stats' hstats'
    cases hstats'
    rw [UInt32.toNat_ofNat_of_lt' hfits, Nat.max_eq_left (Nat.le_max_right _ _)]
    rcases List.mem_append.mp hd with hd | hd
    · exact (h.covers d (hext.descriptors ▸ hd) stats hstats).mono (Nat.le_refl _) hext.addressMap
    · obtain rfl := List.mem_singleton.mp hd
      rcases hrange with ⟨wildcard, hw, hcovers⟩
      refine ⟨wildcard, hw, ?_⟩
      cases wildcard with
      | true => exact hcovers.mono fun _ hmem => hmem
      | false => exact hcovers.mono fun _ hmem => hmem

end Derived

/-! ## Opening the database again -/

/-- The database holds the addresses of the cache. -/
structure Synced (s : AddressCacheInner) : Prop extends Indexed s where
  saved : s.database.addresses = s.addressMap

section Reopen

variable {B M} {s : AddressCacheInner}

theorem lookup_foldl_insert (utxos : List OutPoint) (hash : Hash256)
    (index : HashMap OutPoint Hash256) (o : OutPoint) :
    (utxos.foldl (fun index utxo => index.insert utxo hash) index).lookup o =
      if o ∈ utxos then some hash else index.lookup o := by
  induction utxos generalizing index with
  | nil => simp
  | cons utxo utxos ih =>
    rw [List.foldl_cons, ih, lookup_insert_eq]
    by_cases hmem : o ∈ utxos <;> by_cases heq : o = utxo <;> simp [hmem, heq]

theorem mem_load {db : KvDatabase} :
    a ∈ db.load ↔ ∃ hash, db.addresses.lookup hash = some a := by
  unfold KvDatabase.load
  rw [List.mem_filterMap]
  constructor
  · rintro ⟨hash, -, ha⟩
    exact ⟨hash, ha⟩
  · rintro ⟨hash, ha⟩
    exact ⟨hash, Ordered.mem_ordered.mpr
      (Finmap.mem_keys.mpr (Finmap.mem_of_lookup_eq_some ha)), ha⟩

/-- The cache after some of the stored addresses have been inserted. -/
structure Loaded (db : KvDatabase) (done : List CachedAddress) (t : AddressCacheInner) : Prop where
  database : t.database = db
  addressMap : ∀ h a, t.addressMap.lookup h = some a ↔ a ∈ done ∧ a.scriptHash = h
  scriptSet : ∀ h, h ∈ t.scriptSet ↔ ∃ a ∈ done, a.scriptHash = h
  utxoIndex : ∀ o h, t.utxoIndex.lookup o = some h ↔ ∃ a ∈ done, a.scriptHash = h ∧ o ∈ a.utxos

theorem Loaded.insertLoaded {db : KvDatabase} {done : List CachedAddress} {t : AddressCacheInner}
    (h : Loaded db done t) {x : CachedAddress}
    (hsame : ∀ a ∈ done, a.scriptHash = x.scriptHash → a = x)
    (howner : ∀ a ∈ done, ∀ o ∈ a.utxos, o ∈ x.utxos → a.scriptHash = x.scriptHash) :
    Loaded db (done ++ [x]) (t.insertLoaded x) := by
  refine ⟨h.database, ?_, ?_, ?_⟩
  · intro h' a
    change (t.addressMap.insert x.scriptHash x).lookup h' = some a ↔ _
    rw [lookup_insert_eq]
    by_cases heq : h' = x.scriptHash
    · subst heq
      rw [if_pos rfl]
      constructor
      · intro ha
        cases ha
        simp
      · rintro ⟨ha, hhash⟩
        rcases List.mem_append.mp ha with ha | ha
        · rw [hsame a ha hhash]
        · rw [List.mem_singleton.mp ha]
    · rw [if_neg heq, h.addressMap]
      constructor
      · rintro ⟨ha, hhash⟩
        exact ⟨List.mem_append_left _ ha, hhash⟩
      · rintro ⟨ha, hhash⟩
        rcases List.mem_append.mp ha with ha | ha
        · exact ⟨ha, hhash⟩
        · rw [List.mem_singleton.mp ha] at hhash
          exact absurd hhash.symm heq
  · intro h'
    change h' ∈ insert x.scriptHash t.scriptSet ↔ _
    rw [Finset.mem_insert, h.scriptSet]
    simp only [List.mem_append, List.mem_singleton]
    constructor
    · rintro (rfl | ⟨a, ha, hhash⟩)
      · exact ⟨x, .inr rfl, rfl⟩
      · exact ⟨a, .inl ha, hhash⟩
    · rintro ⟨a, ha | rfl, hhash⟩
      · exact .inr ⟨a, ha, hhash⟩
      · exact .inl hhash.symm
  · intro o h'
    change (x.utxos.foldl (fun index utxo => index.insert utxo x.scriptHash)
      t.utxoIndex).lookup o = some h' ↔ _
    rw [lookup_foldl_insert]
    simp only [List.mem_append, List.mem_singleton]
    by_cases ho : o ∈ x.utxos
    · rw [if_pos ho]
      constructor
      · intro hh
        cases hh
        exact ⟨x, .inr rfl, rfl, ho⟩
      · rintro ⟨a, ha | rfl, rfl, hoa⟩
        · rw [howner a ha o hoa ho]
        · rfl
    · rw [if_neg ho, h.utxoIndex]
      constructor
      · rintro ⟨a, ha, hhash, hoa⟩
        exact ⟨a, .inl ha, hhash, hoa⟩
      · rintro ⟨a, ha | rfl, hhash, hoa⟩
        · exact ⟨a, ha, hhash, hoa⟩
        · exact absurd hoa ho

/-- The cache before the stored addresses are inserted. -/
def unloaded (db : KvDatabase) : AddressCacheInner where
  database := db
  addressMap := ∅
  scriptSet := ∅
  utxoIndex := ∅
  derivedIndex := ∅

theorem Synced.mem_load (h : Synced s) (a : CachedAddress) :
    a ∈ s.database.load ↔ s.addressMap.lookup a.scriptHash = some a := by
  rw [Wallet.mem_load, h.saved]
  constructor
  · rintro ⟨hash, ha⟩
    rwa [h.own hash a ha]
  · exact fun ha => ⟨_, ha⟩

theorem Synced.loaded (h : Synced s) (rest done : List CachedAddress) (t : AddressCacheInner)
    (hsplit : s.database.load = done ++ rest) (ht : Loaded s.database done t) :
    Loaded s.database s.database.load (rest.foldl AddressCacheInner.insertLoaded t) := by
  induction rest generalizing done t with
  | nil => simpa [hsplit] using ht
  | cons x rest ih =>
    have hx := (h.mem_load x).mp (by simp [hsplit])
    have hdone : ∀ a ∈ done, s.addressMap.lookup a.scriptHash = some a :=
      fun a ha => (h.mem_load a).mp (by simp [hsplit, ha])
    refine ih (done ++ [x]) _ (by simp [hsplit]) (ht.insertLoaded ?_ ?_)
    · intro a ha hhash
      have hxa := hdone a ha
      rw [hhash, hx] at hxa
      exact (Option.some.inj hxa).symm
    · -- an output listed by both would be indexed under both
      intro a ha o hoa hox
      have h1 := (h.index o _).mpr ⟨a, hdone a ha, hoa⟩
      have h2 := (h.index o _).mpr ⟨x, hx, hox⟩
      exact Option.some.inj (h1.symm.trans h2)

theorem Synced.foldl_insertLoaded (h : Synced s) :
    ∃ t, s.database.load.foldl AddressCacheInner.insertLoaded (unloaded s.database) = t ∧
      t.database = s.database ∧ t.addressMap = s.addressMap ∧ t.scriptSet = s.scriptSet ∧
      t.utxoIndex = s.utxoIndex := by
  refine ⟨_, rfl, ?_⟩
  have hloaded := h.loaded s.database.load [] (unloaded s.database) rfl (by
    refine ⟨rfl, ?_, ?_, ?_⟩
    all_goals simp [unloaded, Finmap.lookup_empty])
  have hback : ∀ hash a, s.addressMap.lookup hash = some a →
      a ∈ s.database.load ∧ a.scriptHash = hash := by
    intro hash a ha
    have hown := h.own hash a ha
    exact ⟨(h.mem_load a).mpr (by rw [hown]; exact ha), hown⟩
  generalize s.database.load.foldl AddressCacheInner.insertLoaded _ = t at hloaded ⊢
  refine ⟨hloaded.database, ?_, ?_, ?_⟩
  · refine Finmap.ext_lookup fun hash => Option.ext fun a => ?_
    rw [hloaded.addressMap]
    constructor
    · rintro ⟨ha, rfl⟩
      exact (h.mem_load a).mp ha
    · exact hback hash a
  · ext hash
    rw [h.tracked, hloaded.scriptSet, Finmap.mem_iff]
    constructor
    · rintro ⟨a, ha, rfl⟩
      exact ⟨a, (h.mem_load a).mp ha⟩
    · rintro ⟨a, ha⟩
      exact ⟨a, hback hash a ha⟩
  · refine Finmap.ext_lookup fun o => Option.ext fun hash => ?_
    rw [hloaded.utxoIndex, h.index]
    constructor
    · rintro ⟨a, ha, rfl, ho⟩
      exact ⟨a, (h.mem_load a).mp ha, ho⟩
    · rintro ⟨a, ha, ho⟩
      exact ⟨a, (hback hash a ha).1, (hback hash a ha).2, ho⟩

theorem new_of_stats {db : KvDatabase} {stats : Stats} (h : db.stats = some stats) :
    AddressCacheInner.new B M db = rederive B M (db.load.foldl insertLoaded (unloaded db)) := by
  unfold AddressCacheInner.new
  simp only [h, Option.isNone_some, Bool.false_eq_true, if_false]
  rfl

/-- Deriving again from the start only numbers the scripts: all of them are tracked already.  An
index below the first batch is raised to it. -/
theorem Derived.rederive (hd : Derived B M s) {stats : Stats}
    (hstats : s.database.stats = some stats) :
    (s.database.descriptors = [] ∧ rederive B M s = .ok s) ∨
    s.database.descriptors ≠ [] ∧ ∃ derived database index,
      deriveRange B M s.database.descriptors INDEX_INITIAL
          (max stats.derivationIndex.toNat DERIVATION_COUNT) { s with database := database } =
        (.ok derived, { s with database := database, derivedIndex := index }) ∧
      rederive B M s = .ok { s with database := database, derivedIndex := index } ∧
      (DERIVATION_COUNT ≤ stats.derivationIndex.toNat → database = s.database) := by
  unfold AddressCacheInner.rederive
  by_cases hnil : s.database.descriptors = []
  · exact .inl ⟨hnil, if_pos hnil⟩
  have hcovers : ∀ d ∈ s.database.descriptors, ∃ wildcard, M.hasWildcard d = .ok wildcard ∧
      Covers B M s d (if wildcard then INDEX_INITIAL else 0)
        (if wildcard then max stats.derivationIndex.toNat DERIVATION_COUNT else 1) := by
    intro d hmem
    rcases hd.covers d hmem stats hstats with ⟨wildcard, hw, hc⟩
    refine ⟨wildcard, hw, ?_⟩
    simpa [INDEX_INITIAL] using hc
  rw [if_neg hnil, hstats]
  by_cases hlow : stats.derivationIndex.toNat < DERIVATION_COUNT
  · rcases deriveRange_quiet (s := { s with
      database := s.database.saveStats ⟨.ofNat DERIVATION_COUNT⟩ }) hcovers with
      ⟨derived, index, hrange⟩
    refine .inr ⟨hnil, derived, _, index, hrange, bind_eq_ok.mpr ⟨stats, rfl, ?_⟩,
      fun hle => absurd hlow (Nat.not_lt.mpr hle)⟩
    rw [Nat.max_eq_right (Nat.le_of_lt hlow)] at hrange
    have hcount : (UInt32.ofNat DERIVATION_COUNT).toNat = DERIVATION_COUNT := rfl
    have hsaved : (s.database.saveStats ⟨.ofNat DERIVATION_COUNT⟩).descriptors =
      s.database.descriptors := rfl
    simp only [if_pos hlow, hcount, hsaved, hrange]
  · rcases deriveRange_quiet hcovers with ⟨derived, index, hrange⟩
    refine .inr ⟨hnil, derived, s.database, index, hrange, bind_eq_ok.mpr ⟨stats, rfl, ?_⟩,
      fun _ => rfl⟩
    rw [Nat.max_eq_left (Nat.not_lt.mp hlow)] at hrange
    simp only [if_neg hlow, hrange]

theorem Synced.reopen (h : Synced s) (hd : Derived B M s) :
    ∃ s', AddressCacheInner.new B M s.database = .ok s' ∧ s'.addressMap = s.addressMap ∧
      s'.scriptSet = s.scriptSet ∧ s'.utxoIndex = s.utxoIndex := by
  obtain ⟨stats, hstats⟩ := Option.isSome_iff_exists.mp h.stats
  rcases h.foldl_insertLoaded with ⟨t, ht, hdb, hmap, hset, hindex⟩
  have hdt : Derived B M t := hd.mono ⟨by rw [hdb], by rw [hdb], fun hash hh => by rwa [hmap]⟩
  rw [new_of_stats hstats, ht]
  rcases hdt.rederive (by rw [hdb, hstats]) with ⟨-, heq⟩ | ⟨-, _, _, index, -, heq, -⟩
  · exact ⟨t, heq, hmap, hset, hindex⟩
  · exact ⟨_, heq, hmap, hset, hindex⟩

end Reopen

/-! ## What keeps the database in step -/

/-- The item's address does not know the transaction yet, and its output is not indexed. -/
def Item.fresh (s : AddressCacheInner) (item : Item) : Bool :=
  item.place.height == 0 ||
    (item.touches B s).all fun hash => (s.addressMap.lookup hash).all fun a =>
      decide (B.computeTxid item.tx ∉ a.transactions) &&
        (item.pays B).all fun p => (s.utxoIndex.lookup p.1).isNone

def allFresh (s : AddressCacheInner) : List Item → Bool
  | [] => true
  | item :: items => item.fresh B s && (look B M s item).toOption.all fun s' => allFresh s' items

/-- Every state a wallet on a new database can reach, by blocks that satisfy `C`. -/
inductive Ran (C : AddressCacheInner → Block → Nat → Prop) : AddressCacheInner → Prop
  | new {s : AddressCacheInner} (h : AddressCacheInner.new B M KvDatabase.empty = .ok s) : Ran C s
  | address {s : AddressCacheInner} (h : Ran C s) (script : Script) : Ran C (s.cacheAddress B script)
  | descriptor {s : AddressCacheInner} (h : Ran C s) (descriptor : String) :
      Ran C (pushDescriptor B M descriptor s).2
  | block {s s' : AddressCacheInner} (h : Ran C s) {block : Block} {height : Nat}
      {found : List (Transaction × TxOut)} (hblock : C s block height)
      (hprocess : s.blockProcess B M block height = .ok (s', found)) : Ran C s'
  | mempool {s s' : AddressCacheInner} (h : Ran C s) {tx : Transaction} {coins : List TxOut}
      (hcache : s.cacheMempoolTransaction B M tx = .ok (s', coins)) : Ran C s'

section Keeps

variable {B M} {s s' : AddressCacheInner}

/-- The address is written back when the transaction is new to it, and need not be when nothing else
has changed. -/
theorem noteTransaction_saved {address : CachedAddress}
    (h : s.database.addresses = s.addressMap) (hown : address.scriptHash = hash)
    (hnew : txid ∉ address.transactions ∨ s.addressMap.lookup hash = some address) :
    (s.noteTransaction hash address txid).database.addresses =
      (s.noteTransaction hash address txid).addressMap := by
  unfold noteTransaction
  split
  next hmem =>
    have hsame := hnew.resolve_left (not_not_intro hmem)
    change s.database.addresses = s.addressMap.insert hash address
    rw [h]
    refine Finmap.ext_lookup fun hash' => ?_
    rw [lookup_insert_eq]
    split
    next heq => rw [heq, hsame]
    · rfl
  · subst hown
    exact congrArg (Finmap.insert _ _) h

namespace Synced

theorem stable : Stable B Synced where
  cacheAddress s script h := by
    refine ⟨h.toIndexed.cacheAddress script, ?_⟩
    unfold AddressCacheInner.cacheAddress
    dsimp only
    split
    · exact h.saved
    · exact congrArg (Finmap.insert _ _) h.saved
  derivedIndex _ _ h := ⟨(Indexed.stable (B := B)).derivedIndex _ _ h.toIndexed, h.saved⟩
  saveStats _ _ h := ⟨(Indexed.stable (B := B)).saveStats _ _ h.toIndexed, h.saved⟩

theorem stored (h : Synced s) (record : CachedTransaction) : Synced (stored B s record) :=
  ⟨{ h with }, h.saved⟩

theorem noted (h : Synced s)
    (ha : s.addressMap.lookup hash = some a) (txid : Txid) :
    Synced (s.noteTransaction hash a txid) := by
  have hown := h.own hash a ha
  have hw := noteTransaction_writes s hash a txid
  refine ⟨h.toIndexed.writes ha hw ?_ ?_ (h.index_same ha (a.noted_utxos txid)),
    noteTransaction_saved h.saved hown (.inr ha)⟩
  · simpa using hown
  · simpa using h.nodup hash a ha

theorem spend (h : Synced s)
    (ha : s.addressMap.lookup hash = some a) {o : OutPoint} (ho : o ∈ a.utxos)
    (hnew : txid ∉ a.transactions) :
    Synced ({ s with utxoIndex := s.utxoIndex.erase o }.noteTransaction hash
      { a with balance := a.balance - value, utxos := a.utxos.erase o } txid) := by
  have hown := h.own hash a ha
  refine ⟨h.toIndexed.writes ha (noteTransaction_writes_index ..) ?_ ?_
    (h.index_erase ha ho (CachedAddress.noted_utxos _ txid)), ?_⟩
  · simpa using hown
  · simpa using (h.nodup hash a ha).erase o
  · exact noteTransaction_saved (s := { s with utxoIndex := s.utxoIndex.erase o }) h.saved hown
      (.inl hnew)

theorem pay (h : Synced s)
    (ha : s.addressMap.lookup hash = some a) {o : OutPoint} (ho : s.utxoIndex.lookup o = none)
    {balance : Nat} (hnew : txid ∉ a.transactions) :
    Synced ({ s with utxoIndex := s.utxoIndex.insert o hash }.noteTransaction hash
      { a with utxos := a.utxos ++ [o], balance := balance } txid) := by
  have hown := h.own hash a ha
  have hnotMem := h.not_mem_utxos ha ho
  refine ⟨h.toIndexed.writes ha (noteTransaction_writes_index ..) ?_ ?_
    (h.index_insert ha ho (CachedAddress.noted_utxos _ txid)), ?_⟩
  · simpa using hown
  · simp only [CachedAddress.noted_utxos]
    exact (h.nodup hash a ha).append (List.nodup_singleton o) (by simpa using hnotMem)
  · exact noteTransaction_saved (s := { s with utxoIndex := s.utxoIndex.insert o hash }) h.saved
      hown (.inl hnew)

/-- A transaction of an address is noted, or the outputs of the address change as well. -/
theorem cacheTransaction_cases (h : Synced s) (ha : s.addressMap.lookup hash = some a)
    {height position : Nat} {proof : MerkleProof}
    (hok : s.cacheTransaction B M tx height value proof position index isSpend hash = .ok s')
    (hconfirmed : 0 < height → ∀ t, Synced t →
      Grows (Wallet.stored B s (.record B tx height proof position)) t →
      t.saveNonMempoolTx B tx isSpend value index hash (.record B tx height proof position) =
        .ok s' → Synced s') : Synced s' := by
  rcases cacheTransaction_ok (Finmap.mem_of_lookup_eq_some ha) hok with ⟨t, hderive, hgrows, hsave⟩
  have ht : Synced t := stable.maybeDeriveAddresses (h.stored _) hderive
  have hat := hgrows.addressMap hash a ha
  unfold saveTx at hsave
  split at hsave
  next hheight => exact hconfirmed hheight t ht hgrows hsave
  next =>
    cases hsave
    unfold saveMempoolTx
    rw [hat]
    exact ht.noted hat _

theorem cacheTransaction_unconfirmed (h : Synced s)
    (ha : s.addressMap.lookup hash = some a) {position : Nat} {proof : MerkleProof}
    (hok : s.cacheTransaction B M tx 0 value proof position index isSpend hash = .ok s') :
    Synced s' :=
  h.cacheTransaction_cases ha hok fun hheight => absurd hheight (Nat.lt_irrefl 0)

theorem look (h : Synced s) {item : Item} (hplaced : item.Placed) (hfresh : item.fresh B s)
    (hlook : look B M s item = .ok s') : Synced s' := by
  cases htouches : item.touches B s with
  | none =>
    cases (look_of_untouched (M := M) htouches).symm.trans hlook
    exact h
  | some hash =>
  have hfresh' : 0 < item.place.height → ∀ a, s.addressMap.lookup hash = some a →
      B.computeTxid item.tx ∉ a.transactions ∧
        ∀ p, item.pays B = some p → s.utxoIndex.lookup p.1 = none := by
    intro hheight a ha
    simpa [Item.fresh, htouches, ha, Nat.ne_of_gt hheight, Option.all_eq_true] using hfresh
  cases item with
  | input place tx txin vin =>
    rcases look_input_ok htouches hlook with ⟨a, value, proof, ha, -, hok⟩
    rw [h.own hash a ha] at hok
    refine h.cacheTransaction_cases ha hok fun hheight t ht hgrows hsave => ?_
    have hat := hgrows.addressMap hash a ha
    -- the index says which address has the output
    have ho : txin.previousOutput ∈ a.utxos := by
      rcases (h.index _ hash).mp htouches with ⟨a', ha', ho⟩
      cases ha.symm.trans ha'
      exact ho
    have heq := saveNonMempoolTx_spend_eq (B := B) hat (saveNonMempoolTx_covers hat hsave)
      hplaced.2 ho (.record B tx place.height proof place.position)
    cases heq.symm.trans hsave
    exact ht.spend hat ho (hfresh' hheight a ha).1
  | output place tx out vout =>
    rcases Item.touches_output.mp htouches with ⟨hmem, rfl⟩
    rcases h.mem_addressMap hmem with ⟨a, ha⟩
    rcases look_output_ok hmem hlook with ⟨proof, -, hok⟩
    refine h.cacheTransaction_cases ha hok fun hheight t ht hgrows hsave => ?_
    have hat := hgrows.addressMap _ a ha
    have heq := saveNonMempoolTx_pay_eq (B := B) hat tx out.value.sat vout
      (.record B tx place.height proof place.position)
    cases heq.symm.trans hsave
    rcases hfresh' hheight a ha with ⟨hnew, hindex⟩
    refine ht.pay hat ?_ hnew
    rw [hgrows.utxoIndex]
    exact hindex _ rfl

end Synced

/-! ### Derivation goes on -/

theorem noteTransaction_extends (s : AddressCacheInner) (index : HashMap OutPoint Hash256)
    (hash : Hash256) (a : CachedAddress) (txid : Txid) :
    Extends s ({ s with utxoIndex := index }.noteTransaction hash a txid) := by
  unfold noteTransaction
  split
  all_goals exact ⟨rfl, rfl, fun _ hmem => Finmap.mem_insert.mpr (.inr hmem)⟩

theorem saveTx_extends
    {record : CachedTransaction} (hok : saveTx B s tx value index isSpend hash record = .ok s') :
    Extends s s' := by
  rcases saveTx_ok hok with ⟨-, rfl⟩ | ⟨a, address, utxoIndex, -, rfl, -⟩
  · exact Extends.refl s'
  · exact noteTransaction_extends s ..

theorem Derived.cacheTransaction (h : Derived B M s) {height : Nat}
    {proof : MerkleProof} {position : Nat}
    (hmem : hash ∈ s.addressMap)
    (hok : s.cacheTransaction B M tx height value proof position index isSpend hash = .ok s') :
    Derived B M s' := by
  rcases cacheTransaction_ok hmem hok with ⟨t, hderive, -, hsave⟩
  have hstored : Derived B M (Wallet.stored B s (.record B tx height proof position)) :=
    h.mono ⟨rfl, rfl, fun _ hh => hh⟩
  exact (hstored.maybeDeriveAddresses hderive).mono (saveTx_extends hsave)

theorem Derived.look (h : Derived B M s) (hs : Indexed s) {item : Item}
    (hlook : look B M s item = .ok s') : Derived B M s' := by
  cases htouches : item.touches B s with
  | none =>
    cases (look_of_untouched (M := M) htouches).symm.trans hlook
    exact h
  | some hash =>
    rcases look_touched hs.tracked hs.own htouches hlook with ⟨value, proof, index, isSpend, hmem, -, hok⟩
    exact h.cacheTransaction hmem hok

theorem Synced.scan {items : List Item} (hs : Synced s) (hd : Derived B M s)
    (hfresh : allFresh B M s items) (hplaced : ∀ item ∈ items, item.Placed)
    (hscan : scan B M s items = .ok s') : Synced s' ∧ Derived B M s' := by
  induction items generalizing s with
  | nil =>
    cases hscan
    exact ⟨hs, hd⟩
  | cons item items ih =>
    rw [Wallet.scan, List.foldlM_cons, bind_eq_ok] at hscan
    rcases hscan with ⟨t, hlook, hscan⟩
    rw [allFresh, hlook, Bool.and_eq_true] at hfresh
    exact ih (hs.look (hplaced item List.mem_cons_self) hfresh.1 hlook)
      (hd.look hs.toIndexed hlook) hfresh.2
      (fun item' hmem => hplaced item' (List.mem_cons_of_mem _ hmem)) hscan

theorem Ran.synced (h : Ran B M (fun s block height => allFresh B M s (blockItems block height)) s) :
    Synced s ∧ Derived B M s := by
  induction h with
  | new h =>
    cases new_empty.symm.trans h
    refine ⟨⟨⟨rfl, ?_, ?_, ?_, ?_⟩, rfl⟩, ⟨?_⟩⟩
    all_goals simp [emptyCache, KvDatabase.empty, KvDatabase.saveStats, Finmap.notMem_empty]
  | address h script ih =>
    exact ⟨Synced.stable.cacheAddress _ script ih.1, ih.2.mono ((Extends.refl _).cacheAddress _)⟩
  | descriptor h descriptor ih =>
    refine ⟨Synced.stable.pushDescriptor ?_ descriptor _ ih.1, ih.2.pushDescriptor descriptor⟩
    intro s d hs
    exact ⟨{ hs with }, hs.saved⟩
  | block h hblock hprocess ih =>
    exact ih.1.scan ih.2 hblock (fun item hmem => (blockItems_placed hmem).1)
      (scan_of_blockProcess hprocess)
  | mempool h hcache ih =>
    refine cacheMempoolTransaction_ok (P := fun s => Synced s ∧ Derived B M s) ?_ ih hcache
    intro s s' value index hash a hs ha hok
    rw [hs.1.own hash a ha] at hok
    exact ⟨hs.1.cacheTransaction_unconfirmed ha hok,
      hs.2.cacheTransaction (Finmap.mem_of_lookup_eq_some ha) hok⟩

end Keeps

/-! ## Restarting the wallet -/

section Main

variable {B M} {s : AddressCacheInner}

/-- As long as no block touches an address by a transaction that the address lists already, opening
the wallet's database gives the addresses, the script set and the index of the running wallet. -/
theorem wallet_reopens
    (h : Ran B M (fun s block height => allFresh B M s (blockItems block height)) s) :
    ∃ s', AddressCacheInner.new B M s.database = .ok s' ∧ s'.addressMap = s.addressMap ∧
      s'.scriptSet = s.scriptSet ∧ s'.utxoIndex = s.utxoIndex :=
  h.synced.1.reopen h.synced.2

end Main

open Sample Bitcoin in
theorem wallet_reopens_sample : ∃ s s', s.database.transactions ≠ ∅ ∧
    Ran sample miniscript (fun s block height =>
      allFresh sample miniscript s (blockItems block height)) s ∧
    AddressCacheInner.new sample miniscript s.database = .ok s' ∧
    s'.addressMap = s.addressMap := by
  have hrun : (allFresh sample miniscript single (blockItems funding 1) &&
      (single.blockProcess sample miniscript funding 1).toOption.any fun r =>
        allFresh sample miniscript r.1 (blockItems emptying 2) &&
          (r.1.blockProcess sample miniscript emptying 2).toOption.any fun r =>
            (r.1.database.transactions.lookup
              (sample.computeTxid (coinbase 1 [output 50 7]))).isSome) = true := by
    decide +kernel
  rcases (Bool.and_eq_true_iff.mp hrun) with ⟨hfresh1, hrun⟩
  rcases exists_of_any hrun with ⟨⟨s1, found1⟩, hs1, hrun⟩
  rcases (Bool.and_eq_true_iff.mp hrun) with ⟨hfresh2, hrun⟩
  rcases exists_of_any hrun with ⟨⟨s2, found2⟩, hs2, hmem⟩
  have hnew : Ran sample miniscript (fun s block height =>
      allFresh sample miniscript s (blockItems block height)) emptyCache := .new new_empty
  have hreached := ((hnew.address [7]).block hfresh1 hs1).block hfresh2 hs2
  rcases wallet_reopens hreached with ⟨s', hopen, hmap, -, -⟩
  refine ⟨s2, s', ?_, hreached, hopen, hmap⟩
  intro hempty
  rw [hempty] at hmem
  cases hmem

namespace Sample

open Bitcoin

/-- The running wallet and the reopened one have these balances for script 7. -/
def reopens (s : AddressCacheInner) (m n : Nat) : Bool :=
  (AddressCacheInner.new sample miniscript s.database).toOption.any fun s' =>
    (s.addressMap.lookup (getSpkHash sample [7])).any fun a =>
      (s'.addressMap.lookup (getSpkHash sample [7])).any fun a' =>
        a.balance == m && a'.balance == n

theorem reopens_eq_true {s : AddressCacheInner} {m n : Nat} (h : reopens s m n = true) :
    ∃ s' a a', AddressCacheInner.new sample miniscript s.database = .ok s' ∧
      s.addressMap.lookup (getSpkHash sample [7]) = some a ∧
      s'.addressMap.lookup (getSpkHash sample [7]) = some a' ∧
      a.balance = m ∧ a'.balance = n := by
  rcases exists_of_any h with ⟨s', hopen, h⟩
  rcases (Option.any_eq_true _ _).mp h with ⟨a, ha, h⟩
  rcases (Option.any_eq_true _ _).mp h with ⟨a', ha', h⟩
  simp only [Bool.and_eq_true, beq_iff_eq] at h
  exact ⟨s', a, a', hopen, ha, ha', h.1, h.2⟩

end Sample

open Sample Bitcoin in
/-- Two outputs of one transaction that pay one address, or a payment that was seen unconfirmed: the
address is not written back, and the wallet that opens on the database lacks an output. -/
theorem wallet_reopens_without_output :
    (∃ s s' a a', Ran sample miniscript (fun _ _ _ => True) s ∧
      AddressCacheInner.new sample miniscript s.database = .ok s' ∧
      s.addressMap.lookup (getSpkHash sample [7]) = some a ∧
      s'.addressMap.lookup (getSpkHash sample [7]) = some a' ∧
      a.balance = 70 ∧ a'.balance = 50) ∧
    ∃ s s' a a', Ran sample miniscript (fun _ _ _ => True) s ∧
      AddressCacheInner.new sample miniscript s.database = .ok s' ∧
      s.addressMap.lookup (getSpkHash sample [7]) = some a ∧
      s'.addressMap.lookup (getSpkHash sample [7]) = some a' ∧
      a.balance = 50 ∧ a'.balance = 0 := by
  have hnew : Ran sample miniscript (fun _ _ _ => True) emptyCache := .new new_empty
  constructor
  · have hrun : ((single.blockProcess sample miniscript
        (block [coinbase 1 [output 50 7, output 20 7]]) 1).toOption.any fun r =>
          reopens r.1 70 50) = true := by
      decide +kernel
    rcases exists_of_any hrun with ⟨⟨s, found⟩, hs, hcheck⟩
    rcases reopens_eq_true hcheck with ⟨s', a, a', hall⟩
    exact ⟨s, s', a, a', (hnew.address [7]).block trivial hs, hall⟩
  · have hrun : ((single.cacheMempoolTransaction sample miniscript
        (coinbase 1 [output 50 7])).toOption.any fun r =>
          (r.1.blockProcess sample miniscript funding 1).toOption.any fun r =>
            reopens r.1 50 0) = true := by
      decide +kernel
    rcases exists_of_any hrun with ⟨⟨s1, coins⟩, hs1, hrun⟩
    rcases exists_of_any hrun with ⟨⟨s, found⟩, hs, hcheck⟩
    rcases reopens_eq_true hcheck with ⟨s', a, a', hall⟩
    exact ⟨s, s', a, a', ((hnew.address [7]).mempool hs1).block trivial hs, hall⟩

end Floresta.Wallet
