import Floresta.ChainState.Accept

/-!
# HeaderRuns — the best-chain index along every sequence of headers

A chain state starts with the genesis header alone and then gets headers in any order.  As long as
the store reports no lack of room, the height index, the header map and the fields of the best chain
describe one and the same chain, and every other stored header is a fork header one block above its
parent.
-/

namespace Floresta.ChainState

open Prog FlatChainStore

variable {C : ChainContext} {k : Nat}

/-! ## The first state -/

section New

variable {config : FlatChainStoreConfig} {s : ChainStateInner C}

def genesisEntry (C : ChainContext) : DiskBlockHeader := .fullyValid C.genesisHeader 0

/-- A chain state over a store with the genesis header alone, and an index of `2 ^ k` buckets. -/
structure IsNew (config : FlatChainStoreConfig) (k : Nat) (s : ChainStateInner C) : Prop where
  core : StoreCore C.bitcoin C.genesisHash k (genesisStore config (genesisEntry C) C.genesisHash)
  eq : ∃ assumeValid, s = ⟨C.rustreexo.new, genesisStore config (genesisEntry C) C.genesisHash,
    ⟨C.genesisHash, 0, C.genesisHash, []⟩, .headersSync, assumeValid⟩

/-- A chain state that `new` makes over a new store, whose configured index size is rounded up to a
power of two. -/
structure Created (config : FlatChainStoreConfig) (s : ChainStateInner C) : Prop where
  rounds : IndexRounds config
  genesis : C.genesisHash ≠ 0
  new : ∃ assumeValid, ChainState.new C (createChainStore config) assumeValid = .ok s

theorem Created.isNew (h : Created config s) : IsNew config (indexBits config) s := by
  rcases h.new with ⟨assumeValid, hnew⟩
  have hsave : wp (saveHeader C.bitcoin (.fullyValid C.genesisHeader 0)) (fun r s' => r = .ok () →
      0 < (createChainStore config).metadata.headersFileSize ∧
        s' = genesisStore config (genesisEntry C) C.genesisHash) (createChainStore config) :=
    saveHeader_genesis rfl rfl
  unfold ChainState.new at hnew
  unfold wp at hsave
  rcases hrun : saveHeader C.bitcoin (.fullyValid C.genesisHeader 0) (createChainStore config) with
    ⟨e | u, store1⟩
  · simp only [hrun] at hnew
    cases hnew
  rw [hrun] at hsave
  rcases hsave rfl with ⟨hinside, hstore⟩
  change store1 = _ at hstore
  subst hstore
  have hcore : StoreCore C.bitcoin C.genesisHash (indexBits config)
      (genesisStore config (genesisEntry C) C.genesisHash) :=
    genesisStore_core h.rounds hinside h.genesis rfl rfl rfl
  have hindex := updateBlockIndex_genesis hcore
  unfold wp at hindex
  rcases hrun' : updateBlockIndex 0 C.genesisHash
      (genesisStore config (genesisEntry C) C.genesisHash) with ⟨e | u, store2⟩
  · simp only [hrun, hrun'] at hnew
    cases hnew
  · rw [hrun'] at hindex
    simp only [hrun, hrun'] at hnew
    cases hindex rfl
    exact ⟨hcore, _, (Except.ok.inj hnew).symm⟩

theorem new_view (hnew : IsNew config k s) :
    s.view = Function.update (fun _ => none) C.genesisHash (some (genesisEntry C)) := by
  rcases hnew with ⟨hcore, _, rfl⟩
  exact (genesisStore_inv hcore).2

theorem new_only (hnew : IsNew config k s) {x : BlockHash} {d : DiskBlockHeader}
    (hd : s.view x = some d) :
    x = C.genesisHash ∧ d = genesisEntry C := by
  rw [new_view hnew] at hd
  by_cases hx : x = C.genesisHash
  · rw [hx, Function.update_self] at hd
    exact ⟨hx, (Option.some.inj hd).symm⟩
  · rw [Function.update_of_ne hx] at hd
    cases hd

theorem genesisEntry_isGenesis : isGenesis C (genesisEntry C).header = true := by
  simp [isGenesis, genesisEntry, DiskBlockHeader.header, ChainContext.genesisHash]

theorem new_inv (hnew : IsNew config k s) : ChainInv k s := by
  have hview := new_view hnew
  have honly : ∀ {x d}, s.view x = some d → x = C.genesisHash ∧ d = genesisEntry C :=
    new_only hnew
  rcases hnew with ⟨hcore, _, rfl⟩
  have hgenesis : OnChain (genesisStore config (genesisEntry C) C.genesisHash).view C.genesisHash
      (genesisEntry C) 0 := by
    exact ⟨(congrFun hview _).trans (Function.update_self ..), rfl, rfl⟩
  refine ⟨(genesisStore_inv hcore).1, Nat.zero_le _, ⟨hgenesis.entry, ?_, ?_⟩, ⟨?_, ?_, ?_⟩,
    ⟨_, hgenesis⟩⟩
  · intro x d hd
    rcases honly hd with ⟨rfl, rfl⟩
    rfl
  · intro x d hd
    rcases honly hd with ⟨rfl, rfl⟩
    refine ⟨0, Nat.zero_le _, .genesis genesisEntry_isGenesis, ?_⟩
    intro m hm
    exact (Option.some.inj hm).symm
  · intro x y d e n hx hy
    rw [(honly hx.entry).1, (honly hy.entry).1]
  · intro x d n hx
    rcases honly hx.entry with ⟨rfl, rfl⟩
    exact Nat.le_of_eq (Option.some.inj hx.height).symm
  · intro x d n hx hne
    exact absurd (honly hx.entry).1 hne

end New

/-! ## Runs -/

/-- Offers the headers one after the other, and collects the answers. -/
def acceptHeaders : List BlockHeader → ChainStateInner C → List (Except Fault Unit) × ChainStateInner C
  | [], s => ([], s)
  | header :: headers, s =>
    let (result, s') := acceptHeader header s
    let (results, s'') := acceptHeaders headers s'
    (result :: results, s'')

/-- No header is an orphan, assumed valid or known to be invalid. -/
def Plain (V : HeaderMap) : Prop :=
  ∀ x d, V x = some d → (∃ h n, d = .fullyValid h n) ∨ (∃ h n, d = .headersOnly h n) ∨
    ∃ h n, d = .inFork h n

theorem Plain.height {V : HeaderMap} (h : Plain V) {x : BlockHash} {d : DiskBlockHeader}
    (hd : V x = some d) : ∃ n, d.height = some n := by
  rcases h x d hd with ⟨header, n, rfl⟩ | ⟨header, n, rfl⟩ | ⟨header, n, rfl⟩
  · exact ⟨n, rfl⟩
  · exact ⟨n, rfl⟩
  · exact ⟨n, rfl⟩

variable {s s' : ChainStateInner C}

theorem Plain.accepted {f : Nat} (hplain : Plain s.view) (h : Accepted k f s s') :
    Plain s'.view := by
  intro x d hd
  rcases h.marked.change x d hd with hold | hfork | ⟨header, n, rfl, -⟩
  · exact hplain x d hold
  · exact .inr (.inr hfork)
  · exact .inr (.inl ⟨header, n, rfl⟩)

theorem acceptHeader_keeps (hinv : ChainInv k s) (hplain : Plain s.view)
    {header : BlockHeader} (hzero : C.blockHash header ≠ 0)
    (hroom : ∀ fault, (acceptHeader header s).1 = .error fault → ¬ FullFault fault) :
    ChainInv k (acceptHeader header s).2 ∧ Plain (acceptHeader header s).2.view := by
  have hspec := acceptHeader_outcome hinv hzero
  unfold wp at hspec
  rcases hrun : acceptHeader header s with ⟨fault | _, s'⟩
  · rw [hrun] at hspec hroom
    rcases hspec with ⟨-, hquiet⟩ | ⟨hfull, -⟩
    · refine ⟨hinv.quiet hquiet, ?_⟩
      change Plain s'.view
      rw [hquiet.view]
      exact hplain
    · exact absurd hfull (hroom fault rfl)
  · rw [hrun] at hspec
    rcases hspec with ⟨⟨f, haccepted⟩, -⟩
    exact ⟨haccepted.inv, hplain.accepted haccepted⟩

theorem acceptHeaders_keeps (headers : List BlockHeader) (hinv : ChainInv k s)
    (hplain : Plain s.view) (hzero : ∀ h ∈ headers, C.blockHash h ≠ 0)
    (hroom : ∀ fault, .error fault ∈ (acceptHeaders headers s).1 → ¬ FullFault fault) :
    ChainInv k (acceptHeaders headers s).2 ∧ Plain (acceptHeaders headers s).2.view := by
  induction headers generalizing s with
  | nil => exact ⟨hinv, hplain⟩
  | cons header headers ih =>
    have hfirst := acceptHeader_keeps hinv hplain (hzero header List.mem_cons_self)
      fun fault hfault => hroom fault (by
        rw [← hfault]
        exact List.mem_cons_self)
    exact ih hfirst.1 hfirst.2 (fun h hh => hzero h (List.mem_cons_of_mem _ hh))
      fun fault hfault => hroom fault (List.mem_cons_of_mem _ hfault)

/-! ## The index of the best chain -/

/-- The height index, the header map and the best-chain fields agree on the chain `x 0, x 1, …` up to
the tip, and every other stored header is a fork header on a stored parent. -/
structure BestChainIndex (s : ChainStateInner C) (x : Nat → BlockHash) : Prop where
  genesis : x 0 = C.genesisHash
  tip : x s.bestBlock.depth = s.bestBlock.bestBlock
  index : ∀ h ≤ s.bestBlock.depth,
    (FlatChainStore.getBlockHash h s.chainstore).1 = .ok (some (x h))
  headers : ∀ h ≤ s.bestBlock.depth, ∃ header : BlockHeader, C.blockHash header = x h ∧
    (h ≠ 0 → header.prevBlockhash = x (h - 1)) ∧
    ((getHeader (x h) s.chainstore).1 = .ok (some (.fullyValid header h)) ∨
      (getHeader (x h) s.chainstore).1 = .ok (some (.headersOnly header h)))
  active : ∀ hash header n, (getHeader hash s.chainstore).1 = .ok (some (.fullyValid header n)) ∨
    (getHeader hash s.chainstore).1 = .ok (some (.headersOnly header n)) →
    ∃ h ≤ s.bestBlock.depth, hash = x h
  forks : ∀ hash d, (getHeader hash s.chainstore).1 = .ok (some d) →
    (∃ h ≤ s.bestBlock.depth, hash = x h) ∨
      ∃ header parent n, d = .inFork header (n + 1) ∧
        (getHeader header.prevBlockhash s.chainstore).1 = .ok (some parent) ∧
        parent.height = some n

theorem bestChainIndex (hinv : ChainInv k s) (hplain : Plain s.view) :
    BestChainIndex s fun h => (s.chainstore.headers h).hash := by
  have hget : ∀ hash, (getHeader hash s.chainstore).1 = .ok (s.view hash) :=
    getHeader_fst hinv.store
  rcases hinv.best with ⟨b, hb⟩
  have hchain : ∀ h ≤ s.bestBlock.depth, ∃ y e, OnChain s.view y e h :=
    fun h hh => hinv.settled.exists_onChain hinv.tree hb hh
  have hgenesis : OnChain s.view C.genesisHash (.fullyValid C.genesisHeader 0) 0 :=
    ⟨hinv.tree.genesis, rfl, rfl⟩
  have honchain : ∀ {y d n}, OnChain s.view y d n →
      ∃ h ≤ s.bestBlock.depth, y = (s.chainstore.headers h).hash :=
    fun hy => ⟨_, hinv.settled.capped hy, (hy.record hinv.store).1.symm⟩
  refine ⟨(hgenesis.record hinv.store).1, (hb.record hinv.store).1, ?_, ?_, ?_, ?_⟩
  · intro h hh
    rcases hchain h hh with ⟨y, e, hy⟩
    rcases hy.record hinv.store with ⟨hhash, hrecord⟩
    rw [hhash]
    exact hrecord
  · intro h hh
    rcases hchain h hh with ⟨y, e, hy⟩
    have hhash := (hy.record hinv.store).1
    refine ⟨e.header, ?_, ?_, ?_⟩
    · rw [hhash]
      exact hinv.tree.hash y e hy.entry
    · intro hpos
      have hne : y ≠ C.genesisHash := by
        rintro rfl
        exact hpos (hy.heights_eq hgenesis).2
      rcases hinv.settled.parent hy hne with ⟨p, m, hp, rfl⟩
      exact (hp.record hinv.store).1.symm
    · rw [hhash, hget, hy.entry]
      rcases hplain y e hy.entry with ⟨header, n, rfl⟩ | ⟨header, n, rfl⟩ | ⟨header, n, rfl⟩
      · rw [Option.some.inj hy.height]
        exact .inl rfl
      · rw [Option.some.inj hy.height]
        exact .inr rfl
      · cases hy.active
  · intro hash header n hentry
    simp only [hget] at hentry
    rcases hentry with hentry | hentry
    · exact honchain ⟨Except.ok.inj hentry, rfl, rfl⟩
    · exact honchain ⟨Except.ok.inj hentry, rfl, rfl⟩
  · intro hash d hentry
    rw [hget] at hentry
    have hd := Except.ok.inj hentry
    rcases hplain hash d hd with ⟨header, n, rfl⟩ | ⟨header, n, rfl⟩ | ⟨header, n, rfl⟩
    · exact .inl (honchain ⟨hd, rfl, rfl⟩)
    · exact .inl (honchain ⟨hd, rfl, rfl⟩)
    · right
      rcases hinv.tree.rooted hash _ hd with ⟨m, -, hbranch, hheight⟩
      have hn : n = m := hheight n rfl
      subst hn
      have hg : isGenesis C header = false := hinv.tree.notGenesis hd (by simp)
      cases hbranch with
      | genesis hg' =>
        have hg'' : isGenesis C header = true := hg'
        rw [hg] at hg''
        cases hg''
      | @child _ p m _ hp hbranch' =>
        refine ⟨header, p, m, rfl, ?_, ?_⟩
        · rw [hget]
          exact congrArg Except.ok hp
        · rcases hplain.height hp with ⟨j, hj⟩
          rcases hinv.tree.rooted _ _ hp with ⟨i, -, hbranch'', hheight'⟩
          rw [hj, hheight' j hj, hbranch''.unique hbranch']

/-- From a new chain state, every sequence of headers that never finds the store full leaves the
index of the best chain in order. -/
theorem acceptHeaders_bestChainIndex {config : FlatChainStoreConfig} (hnew : Created config s)
    (headers : List BlockHeader) (hzero : ∀ header ∈ headers, C.blockHash header ≠ 0)
    (hroom : ∀ fault, .error fault ∈ (acceptHeaders headers s).1 → ¬ FullFault fault) :
    ∃ x : Nat → BlockHash, BestChainIndex (acceptHeaders headers s).2 x := by
  have hplain : Plain s.view := by
    intro x d hd
    exact .inl ⟨_, _, (new_only hnew.isNew hd).2⟩
  rcases acceptHeaders_keeps headers (new_inv hnew.isNew) hplain hzero hroom with ⟨hinv, hplain'⟩
  exact ⟨_, bestChainIndex hinv hplain'⟩

/-! ### A reorganisation -/

def fromNew (C : ChainContext) (config : FlatChainStoreConfig) (test : ChainStateInner C → Bool) :
    Bool :=
  match new C (createChainStore config) none with
  | .ok s => test s
  | .error _ => false

theorem fromNew_eq_true {config : FlatChainStoreConfig} {test : ChainStateInner C → Bool}
    (h : fromNew C config test = true) :
    ∃ s, new C (createChainStore config) none = .ok s ∧ test s = true := by
  unfold fromNew at h
  split at h
  · rename_i s hnew
    exact ⟨s, hnew, h⟩
  · cases h

namespace Sample

open ChainContext ChainContext.Sample

def a₁ : BlockHeader := child sample.genesisHeader 1
def a₂ : BlockHeader := child a₁ 2
def b₂ : BlockHeader := child a₁ 3
def b₃ : BlockHeader := child b₂ 4

theorem rounds : IndexRounds config := indexRounds_of_lt (by decide) (by decide)

theorem created {start : ChainStateInner sample}
    (hnew : ChainState.new sample (createChainStore config) none = .ok start) :
    Created config start :=
  ⟨rounds, by decide +kernel, none, hnew⟩

end Sample

open Sample ChainContext in
/-- The branch of `b₃` replaces `a₂` on the best chain. -/
theorem acceptHeaders_bestChainIndex_reorg :
    ∃ s, new sample (createChainStore Sample.config) none = .ok s ∧
      (acceptHeaders [b₃, a₁, a₂, b₂, b₃] s).1 =
        [.error (.error .blockNotPresent), .ok (), .ok (), .ok (), .ok ()] ∧
      (acceptHeaders [b₃, a₁, a₂, b₂, b₃] s).2.bestBlock.bestBlock =
        sample.blockHash b₃ ∧
      ∃ x : Nat → BlockHash, BestChainIndex (acceptHeaders [b₃, a₁, a₂, b₂, b₃] s).2 x := by
  have hrun : fromNew sample Sample.config (fun s => decide
      ((acceptHeaders [b₃, a₁, a₂, b₂, b₃] s).1 =
        [.error (.error .blockNotPresent), .ok (), .ok (), .ok (), .ok ()] ∧
      (acceptHeaders [b₃, a₁, a₂, b₂, b₃] s).2.bestBlock.bestBlock =
        sample.blockHash b₃)) = true := by decide +kernel
  have hzero : ∀ header ∈ [b₃, a₁, a₂, b₂, b₃], sample.blockHash header ≠ 0 := by decide +kernel
  rcases fromNew_eq_true hrun with ⟨s, hnew, htest⟩
  rcases of_decide_eq_true htest with ⟨hresults, htip⟩
  refine ⟨s, hnew, hresults, htip, ?_⟩
  refine acceptHeaders_bestChainIndex (created hnew) _ hzero ?_
  rw [hresults]
  rintro fault hfault ⟨e, rfl, -⟩
  simp at hfault

end Floresta.ChainState
