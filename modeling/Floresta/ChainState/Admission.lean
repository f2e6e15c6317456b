import Floresta.ChainState.Work

/-!
# Admission — which valid headers are accepted

In the states that are reached by offering headers, only the genesis block is validated and every
fork grows out of a block above it.  A header that passes its checks is then refused in two cases
only: it forks out of the genesis block itself, or the work of the best chain overflows.
-/

namespace Floresta.ChainState

open Prog FlatChainStore

variable {C : ChainContext} {k : Nat} {s : ChainStateInner C} {header : BlockHeader}
  {start : ChainStateInner C} {d : DiskBlockHeader}

/-! ## Runs of headers -/

/-- The states that are reached by offering headers, each of them in a state in which it is `ok`. -/
inductive HeaderRun (ok : ChainStateInner C → BlockHeader → Prop) (start : ChainStateInner C) :
    ChainStateInner C → Prop
  | start : HeaderRun ok start start
  | step {s : ChainStateInner C} (header : BlockHeader) :
      HeaderRun ok start s → ok s header → HeaderRun ok start (acceptHeader header s).2

@[mk_iff]
structure HeaderInv (k : Nat) (s : ChainStateInner C) : Prop where
  chain : ChainInv k s
  plain : Plain s.view
  /-- no block but the genesis block was validated -/
  validated : ∀ x d, s.view x = some d → isValidated d = true → x = C.genesisHash
  /-- the genesis block has its children on the best chain -/
  first : ∀ x d, s.view x = some d → isGenesis C d.header = false →
    d.header.prevBlockhash = C.genesisHash → d.isActive = true

namespace HeaderInv

theorem quiet (h : HeaderInv k s) {s' : ChainStateInner C} (hs : Quiet k s s') :
    HeaderInv k s' := by
  rw [headerInv_iff, hs.view]
  exact ⟨h.chain.quiet hs, h.plain, h.validated, h.first⟩

/-- The search for a fork point meets the genesis block only as the parent. -/
theorem parent_of_descent (h : HeaderInv k s) {j : Nat}
    (hd : Descent s.view DiskBlockHeader.isActive header d j)
    (hg : isGenesis C d.header = true) : header.prevBlockhash = C.genesisHash := by
  have hhash : C.blockHash d.header = C.genesisHash := of_decide_eq_true hg
  cases hd with
  | parent hd => rw [← h.chain.tree.hash _ _ hd, hhash]
  | @next e _ _ hdesc hpass hd =>
    rcases hdesc.stored with ⟨x, hx⟩
    have hne : isGenesis C e.header = false := h.chain.tree.notGenesis hx (by
      rintro rfl
      cases hpass)
    have hprev : e.header.prevBlockhash = C.genesisHash := by
      rw [← h.chain.tree.hash _ _ hd, hhash]
    have hactive := h.first x e hx hne hprev
    rw [hpass] at hactive
    cases hactive

theorem onlyOrphans (h : HeaderInv k s) (E : Fault → Prop) : OnlyOrphans s E := by
  intro x d hd hnone
  rcases h.plain.height hd with ⟨n, hn⟩
  rw [hnone] at hn
  cases hn

theorem onlyAtGenesis (h : HeaderInv k s) {E : Fault → Prop}
    (hE : header.prevBlockhash = C.genesisHash → ∀ e, E (.error e)) :
    OnlyAtGenesis s header E := fun _ _ hd hg => hE (h.parent_of_descent hd hg)

end HeaderInv

theorem forkPoint_notGenesis (hinv : ChainInv k s) {j : Nat}
    (hd : Descent s.view DiskBlockHeader.isActive header d j)
    (hactive : d.isActive = true) (hng : isGenesis C d.header = false) :
    header.prevBlockhash ≠ C.genesisHash := by
  intro hprev
  have hparent : Descent s.view DiskBlockHeader.isActive header
      (.fullyValid C.genesisHeader 0) 1 := .parent (by rw [hprev]; exact hinv.tree.genesis)
  rw [hd.unique hactive hparent rfl] at hng
  simp [isGenesis, DiskBlockHeader.header, ChainContext.genesisHash] at hng

/-- If the works of a branch can be compared, it does not fork out of the genesis block. -/
theorem comparedWork_notGenesis (hinv : ChainInv k s) {n : Nat} (hfresh : Fresh s header n)
    {works : Nat × Nat} (hworks : (comparedWork header s).1 = .ok works) :
    header.prevBlockhash ≠ C.genesisHash := by
  have hwithin := within_comparedWork (A := fun _ => True)
    (B := fun _ => header.prevBlockhash ≠ C.genesisHash) hinv hfresh onlyOrphans_proper
    onlyAtGenesis_proper (fun b _ => within_getBranchWork b.header)
    fun d j f hdesc hd hng hj => (within_getForkWork hdesc.above hj).mono
      fun _ _ => forkPoint_notGenesis hinv hdesc hd.active hng
  have hout := (hwithin s (Quiet.refl hinv.store)).2
  rw [hworks] at hout
  exact hout.2

/-! ## The invariant of the runs -/

namespace HeaderInv

variable {s' : ChainStateInner C} {f n : Nat}

theorem validated_accepted (h : HeaderInv k s) (haccepted : Accepted k f s s') :
    ∀ x d, s'.view x = some d → isValidated d = true → x = C.genesisHash := by
  intro x d hd hvalid
  rcases haccepted.marked.change x d hd with hold | ⟨_, _, rfl⟩ | ⟨_, _, rfl, -⟩
  · exact h.validated x d hold hvalid
  · cases hvalid
  · cases hvalid

theorem first_update (h : HeaderInv k s) {e : DiskBlockHeader} {y : BlockHash}
    (he : e.isActive = true ∨ e.header.prevBlockhash ≠ C.genesisHash) :
    ∀ x d, Function.update s.view y (some e) x = some d →
      isGenesis C d.header = false → d.header.prevBlockhash = C.genesisHash →
      d.isActive = true := by
  intro x d hd hg hprev
  by_cases hx : x = y
  · rw [hx, Function.update_self] at hd
    cases hd
    rcases he with hactive | hne
    · exact hactive
    · exact absurd hprev hne
  · rw [Function.update_of_ne hx] at hd
    exact h.first x d hd hg hprev

theorem first_switched (h : HeaderInv k s) (haccepted : Accepted k f s s')
    (hswitched : Switched s header n s') :
    ∀ x d, s'.view x = some d → isGenesis C d.header = false →
      d.header.prevBlockhash = C.genesisHash → d.isActive = true := by
  intro x d hd hg hprev
  rcases haccepted.marked.change x d hd with hold | ⟨_, _, hfork⟩ | ⟨_, _, rfl, -⟩
  · exact h.first x d hold hg hprev
  · -- a fork header was stored before, on the best chain, where it still is
    have hx : x ≠ C.blockHash header := by
      rintro rfl
      rw [hswitched.tip, hfork] at hd
      cases hd
    cases hold : s.view x with
    | none =>
      rw [hswitched.domain x hold hx] at hd
      cases hd
    | some e =>
      rcases haccepted.marked.keeps x e hold with ⟨d', hd', heq⟩
      have hdd : d' = d := Option.some.inj (hd'.symm.trans hd)
      subst hdd
      rw [heq] at hg hprev
      have hactive := h.first x e hold hg hprev
      have hheight : e.height = some 1 := by
        rcases h.plain.height hold with ⟨m, hm⟩
        rcases h.chain.tree.rooted x e hold with ⟨i, -, hbranch, hi⟩
        have hgenesis : s.view e.header.prevBlockhash = some (.fullyValid C.genesisHeader 0) := by
          rw [hprev]
          exact h.chain.tree.genesis
        have hone : Branch C s.view e.header 1 :=
          .child hg hgenesis (.genesis (by simp [isGenesis, DiskBlockHeader.header,
            ChainContext.genesisHash]))
        rw [hm, hi m hm, hbranch.unique hone]
      have hkept := hswitched.first ⟨hold, hactive, hheight⟩
      rw [hd] at hkept
      cases hkept
      exact hactive
  · rfl

theorem accept (h : HeaderInv k s) (hready : AcceptReady s header) :
    HeaderInv k (acceptHeader header s).2 := by
  rcases hready.settle h.chain with ⟨-, ⟨f, haccepted⟩, hentered, -⟩ | ⟨-, -, -, hquiet⟩
  swap
  · exact h.quiet hquiet
  · refine ⟨haccepted.inv, h.plain.accepted haccepted, h.validated_accepted haccepted, ?_⟩
    cases hentered with
    | known _ hquiet => exact (h.quiet hquiet).first
    | extended _ _ hextended =>
      rw [hextended.view]
      exact h.first_update (.inl rfl)
    | decided hfresh _ _ _ hdecided =>
      cases hdecided with
      | forked hworks _ hforked =>
        rw [hforked.view]
        exact h.first_update (.inr (comparedWork_notGenesis h.chain hfresh hworks))
      | switched _ _ hswitched => exact h.first_switched haccepted hswitched

theorem new (hnew : IsNew config k s) : HeaderInv k s := by
  have honly : ∀ {x d}, s.view x = some d → x = C.genesisHash ∧ d = genesisEntry C :=
    new_only hnew
  refine ⟨new_inv hnew, ?_, fun x d hd _ => (honly hd).1, ?_⟩
  · intro x d hd
    exact .inl ⟨_, _, (honly hd).2⟩
  · intro x d hd _ _
    rw [(honly hd).2]
    rfl

end HeaderInv

theorem HeaderRun.induct {ok : ChainStateInner C → BlockHeader → Prop}
    {P : ChainStateInner C → Prop} (hstart : P start)
    (hstep : ∀ s header, P s → ok s header → P (acceptHeader header s).2)
    (h : HeaderRun ok start s) : P s := by
  induction h with
  | start => exact hstart
  | step header _ hok ih => exact hstep _ header ih hok

theorem HeaderRun.inv (hstart : HeaderInv k start)
    (h : HeaderRun AcceptReady start s) : HeaderInv k s :=
  h.induct hstart fun _ _ hinv hready => hinv.accept hready

/-! ## Stores with room to spare -/

/-- Room for a header at the height `n + 1`, and for every reorganisation it could cause. -/
@[mk_iff] structure Spare (s : ChainStateInner C) (n : Nat) : Prop where
  branch : n + 1 < s.chainstore.metadata.headersFileSize
  tip : s.bestBlock.depth + 1 < s.chainstore.metadata.headersFileSize
  heights : s.chainstore.metadata.headersFileSize ≤ 2 ^ 31
  forks : s.chainstore.metadata.forkCount + s.bestBlock.depth < s.chainstore.metadata.forkFileSize
  forkIndex : s.chainstore.metadata.forkFileSize ≤ 2 ^ 31
  bucket : s.chainstore.metadata.blockIndexOccupancy + 2 < s.chainstore.metadata.indexCapacity

instance (s : ChainStateInner C) (n : Nat) : Decidable (Spare s n) :=
  decidable_of_iff _ (spare_iff s n).symm

theorem Spare.ready (hinv : ChainInv k s) (hzero : C.blockHash header ≠ 0)
    (hg : isGenesis C header = false) {n : Nat}
    (hd : s.view header.prevBlockhash = some d) (hn : d.height = some n)
    (hspare : Spare s n) : AcceptReady s header := by
  rcases hinv.tree.branch_child hg hd hn with ⟨hbranch, -⟩
  have hroom : ForkRoom s.chainstore := by
    have hforks := hspare.forks
    have hindex := hspare.forkIndex
    have hbucket := hspare.bucket
    exact ⟨by omega, by omega, by omega⟩
  refine ⟨hzero, fun _ => ⟨hspare.tip, ?_, ?_⟩, fun _ => ⟨hroom, ?_⟩⟩
  · exact Nat.lt_of_lt_of_le hspare.tip hspare.heights
  · have hbucket := hspare.bucket
    omega
  · intro e j f m _ _ _ hm
    have hmn : m = n + 1 := hm.unique hbranch
    have hforks := hspare.forks
    have hindex := hspare.forkIndex
    refine ⟨by omega, by omega, hspare.bucket, ?_, ?_⟩
    · rw [hmn]
      exact hspare.branch
    · rw [hmn]
      exact Nat.lt_of_lt_of_le hspare.branch hspare.heights

/-- A header on a stored parent, and room to spare for it. -/
def spareFor (s : ChainStateInner C) (header : BlockHeader) : Bool :=
  C.blockHash header ≠ 0 && !isGenesis C header &&
    match (getHeader header.prevBlockhash s.chainstore).1 with
    | .ok (some d) => d.height.any fun n => Spare s n
    | _ => false

theorem acceptReady_of_spare (hinv : ChainInv k s) (h : spareFor s header = true) :
    AcceptReady s header := by
  unfold spareFor at h
  simp only [Bool.and_eq_true, decide_eq_true_eq, Bool.not_eq_true'] at h
  rcases h with ⟨⟨hzero, hg⟩, hparent⟩
  rw [getHeader_fst hinv.store] at hparent
  cases hd : s.view header.prevBlockhash with
  | none =>
    rw [hd] at hparent
    cases hparent
  | some d =>
    simp only [hd, Option.any_eq_true_iff_get, decide_eq_true_eq] at hparent
    rcases hparent with ⟨hsome, hspare⟩
    rcases Option.isSome_iff_exists.mp hsome with ⟨n, hn⟩
    simp only [hn, Option.get_some] at hspare
    exact hspare.ready hinv hzero hg hd hn

def testedRun (test : ChainStateInner C → BlockHeader → Bool) :
    List BlockHeader → ChainStateInner C → Bool
  | [], _ => true
  | header :: headers, s => test s header && testedRun test headers (acceptHeader header s).2

theorem HeaderRun.of_testedRun {ok : ChainStateInner C → BlockHeader → Prop}
    {test : ChainStateInner C → BlockHeader → Bool}
    (hready : ∀ {s header}, ok s header → AcceptReady s header)
    (htest : ∀ {s header}, HeaderInv k s → test s header = true → ok s header)
    (hinv : HeaderInv k s) (hrun : HeaderRun ok start s) (headers : List BlockHeader)
    (hheaders : testedRun test headers s = true) :
    HeaderRun ok start (acceptHeaders headers s).2 ∧ HeaderInv k (acceptHeaders headers s).2 := by
  induction headers generalizing s with
  | nil => exact ⟨hrun, hinv⟩
  | cons header headers ih =>
    unfold testedRun at hheaders
    rcases Bool.and_eq_true_iff.mp hheaders with ⟨hfirst, hrest⟩
    have hok := htest hinv hfirst
    exact ih (hinv.accept (hready hok)) (hrun.step header hok) hrest

/-- A test of the state after some headers, each of which passed a test. -/
def afterTested (C : ChainContext) (config : FlatChainStoreConfig)
    (test : ChainStateInner C → BlockHeader → Bool) (headers : List BlockHeader)
    (check : ChainStateInner C → Bool) : Bool :=
  fromNew C config fun start =>
    testedRun test headers start && check (acceptHeaders headers start).2

theorem afterTested_eq_true {ok : ChainStateInner C → BlockHeader → Prop}
    {test : ChainStateInner C → BlockHeader → Bool} {headers : List BlockHeader}
    {check : ChainStateInner C → Bool} (hrounds : IndexRounds config)
    (hgenesis : C.genesisHash ≠ 0) (hready : ∀ {s header}, ok s header → AcceptReady s header)
    (htest : ∀ {s header}, HeaderInv (indexBits config) s → test s header = true → ok s header)
    (h : afterTested C config test headers check = true) :
    ∃ start s, new C (createChainStore config) none = .ok start ∧ HeaderRun ok start s ∧
      HeaderInv (indexBits config) s ∧ s = (acceptHeaders headers start).2 ∧ check s = true := by
  rcases fromNew_eq_true h with ⟨start, hnew, hboth⟩
  rcases Bool.and_eq_true_iff.mp hboth with ⟨hheaders, hcheck⟩
  have hstart := HeaderInv.new (Created.isNew ⟨hrounds, hgenesis, none, hnew⟩)
  rcases HeaderRun.of_testedRun hready htest hstart .start headers hheaders with ⟨hrun, hinv⟩
  exact ⟨start, _, hnew, hrun, hinv, rfl, hcheck⟩

/-! ## Valid headers -/

/-- The header is accepted and is stored afterwards, as the tip of the best chain or on a fork. -/
def Admits (s : ChainStateInner C) (header : BlockHeader) : Prop :=
  (acceptHeader header s).1 = .ok () ∧ ∃ n,
    ((getHeader (C.blockHash header) (acceptHeader header s).2.chainstore).1 =
        .ok (some (.headersOnly header n)) ∧
      (acceptHeader header s).2.bestBlock.bestBlock = C.blockHash header) ∨
    (getHeader (C.blockHash header) (acceptHeader header s).2.chainstore).1 =
      .ok (some (.inFork header n))

/-- The header extends the tip, or forks out of a block above the genesis block while the work of
the best chain can be computed. -/
def Admissible (s : ChainStateInner C) (header : BlockHeader) : Prop :=
  header.prevBlockhash = s.bestBlock.bestBlock ∨
    (header.prevBlockhash ≠ C.genesisHash ∧ EpochsFit s s.bestBlock.depth)

theorem EpochsFit.mono {n m : Nat} (h : EpochsFit s m) (hnm : n ≤ m) : EpochsFit s n := by
  intro epoch hepoch
  have hlt : epoch < m / 2016 + 1 := by
    have hdiv : n / 2016 ≤ m / 2016 := Nat.div_le_div_right hnm
    omega
  refine Nat.lt_of_le_of_lt (Nat.mul_le_mul_left _ ?_) (h epoch hlt)
  unfold epochBlocks
  omega

section Valid

variable (hwork : ∀ bits, C.pow.work bits < 2 ^ 256)

include hwork

/-- The works of a branch can be compared unless it forks out of the genesis block or the work of
the best chain overflows. -/
theorem HeaderInv.within_comparedWork (h : HeaderInv k s) {n : Nat} (hfresh : Fresh s header n) :
    Within (Quiet k s) (fun _ => header.prevBlockhash = C.genesisHash ∨
        ¬ EpochsFit s s.bestBlock.depth) (comparedWork header : ChainM C _)
      fun _ => EpochsFit s s.bestBlock.depth := by
  refine (ChainState.within_comparedWork (A := fun _ => EpochsFit s s.bestBlock.depth)
    (B := fun _ => True) h.chain hfresh (h.onlyOrphans _)
    (h.onlyAtGenesis fun hprev _ => .inl hprev) (fun b hb => ?_)
    fun d j f hdesc hd _ hj => ?_).mono fun _ hout => hout.1
  · refine ((within_branchWork hwork h.chain hb).mono fun _ hout => hout.1).imp ?_
    exact fun _ hover => .inr hover.2
  · rcases TotalWork.exists_of_branch hfresh.branch with ⟨w, hw⟩
    rcases TotalWork.exists_of_branch (hd.branch h.chain.tree).1 with ⟨v, hv⟩
    refine ((within_forkWork hwork h.chain hfresh hdesc hd hj hw hv).mono fun _ _ => trivial).imp ?_
    exact fun _ hover => .inr fun hfits => hover.2 (hfits.mono (h.chain.settled.capped hd))

omit hwork in
/-- A reorganisation can be planned unless the branch forks out of the genesis block: the last valid
block is the genesis block. -/
theorem HeaderInv.within_reorgPlan (h : HeaderInv k s) {n : Nat} (hfresh : Fresh s header n) :
    Within (Quiet k s) (fun _ => header.prevBlockhash = C.genesisHash)
      (reorgPlan header : ChainM C _) fun _ => True := by
  refine (ChainState.within_reorgPlan h.chain hfresh.candidate (h.onlyOrphans _)
    (h.onlyAtGenesis fun hprev _ => hprev) fun e i hdesc he => ?_).mono fun _ _ => trivial
  rcases hdesc.stored with ⟨x, hx⟩
  have hgenesis := h.validated x e hx he
  subst hgenesis
  have hentry : e = .fullyValid C.genesisHeader 0 :=
    Option.some.inj (hx.symm.trans h.chain.tree.genesis)
  subst hentry
  refine Within.bind_eq (Within.bind_eq (within_getDiskBlockHeader_stored (h.chain.tree.lookup hx))
    (Within.pure rfl)) ?_
  exact Within.bind_eq (a := 0) (Within.lift rfl) (Within.pure trivial)

omit hwork in
theorem HeaderInv.fresh (h : HeaderInv k s) (hzero : C.blockHash header ≠ 0)
    (hunstored : s.view (C.blockHash header) = none) {hash : BlockHash}
    (hvalid : (validateHeader header s).1 = .ok hash) : ∃ n, Fresh s header n := by
  have hout := (within_validateHeader header s (Quiet.refl h.chain.store)).2
  rw [hvalid] at hout
  rcases hout with ⟨-, d, n, hd, hn⟩
  have hg : isGenesis C header = false := by
    by_contra hg
    have heq : C.blockHash header = C.genesisHash := by simpa [isGenesis] using hg
    rw [heq, h.chain.tree.genesis] at hunstored
    cases hunstored
  rcases h.chain.tree.branch_child hg hd hn with ⟨hbranch, hbound⟩
  exact ⟨n, hunstored, hzero, hbranch, hbound⟩

theorem HeaderInv.not_admissible (h : HeaderInv k s) {n : Nat} (hfresh : Fresh s header n)
    {fault : Fault} (hprev : header.prevBlockhash ≠ s.bestBlock.bestBlock)
    (hrefused : BranchRefused s header fault) : ¬ Admissible s header := by
  have hrefl := Quiet.refl h.chain.store
  rintro (hbest | ⟨hgenesis, hfits⟩)
  · exact hprev hbest
  · rcases hrefused with hworks | hplan
    · have hout := (h.within_comparedWork hwork hfresh s hrefl).2
      rw [hworks] at hout
      rcases hout with hout | hout
      · exact hgenesis hout
      · exact hout hfits
    · have hout := (h.within_reorgPlan hfresh s hrefl).2
      rw [hplan] at hout
      exact hgenesis hout

/-- In every state that is reached by offering headers to a store with room for them, a new header
that passes `validate_header` is accepted and stored if and only if it extends the tip, or does not
fork out of the genesis block and the work of the best chain does not overflow. -/
theorem acceptHeader_admits_iff {config : FlatChainStoreConfig} {start : ChainStateInner C}
    (hnew : Created config start)
    (hrun : HeaderRun AcceptReady start s) (hready : AcceptReady s header)
    (hunknown : (getHeader (C.blockHash header) s.chainstore).1 = .ok none) {hash : BlockHash}
    (hvalid : (validateHeader header s).1 = .ok hash) :
    Admits s header ↔ Admissible s header := by
  have hinv := hrun.inv (HeaderInv.new hnew.isNew)
  have hunstored : s.view (C.blockHash header) = none :=
    Except.ok.inj ((getHeader_fst hinv.chain.store _).symm.trans hunknown)
  have hget := getHeader_fst (hinv.accept hready).chain.store (C.blockHash header)
  rcases hinv.fresh hready.nonzero hunstored hvalid with ⟨n, hfresh⟩
  unfold Admits
  rw [hget]
  rcases hready.settle hinv.chain with ⟨hok, -, hentered, -⟩ | ⟨fault, herror, ⟨-, hrefused⟩, -⟩
  swap
  · rw [herror]
    refine ⟨fun h => (by cases h.1), fun hadmissible => ?_⟩
    cases hrefused with
    | invalid hinvalid =>
      rw [hvalid] at hinvalid
      cases hinvalid
    | branch hprev hbranch =>
      exact absurd hadmissible (hinv.not_admissible hwork hfresh hprev hbranch)
  · rw [hok]
    generalize (acceptHeader header s).2 = s' at hentered ⊢
    cases hentered with
    | known hknown _ =>
      rw [hunstored] at hknown
      cases hknown
    | extended _ hprev hextended =>
      refine ⟨fun _ => .inl hprev, fun _ => ⟨rfl, s.bestBlock.depth + 1, .inl ⟨?_, ?_⟩⟩⟩
      · rw [hextended.view, Function.update_self]
      · rw [hextended.best]
    | @decided _ m hfresh' hprev _ _ hdecided =>
      have hstored : ∃ n, (Except.ok (ε := FlatChainstoreError)
            (s'.view (C.blockHash header)) = .ok (some (.headersOnly header n)) ∧
          s'.bestBlock.bestBlock = C.blockHash header) ∨
          Except.ok (ε := FlatChainstoreError) (s'.view (C.blockHash header)) =
            .ok (some (.inFork header n)) := by
        cases hdecided with
        | forked _ _ hforked =>
          refine ⟨m + 1, .inr ?_⟩
          rw [hforked.view, Function.update_self]
        | switched _ _ hswitched =>
          refine ⟨m + 1, .inl ⟨?_, hswitched.bestBlock⟩⟩
          rw [hswitched.tip]
      rcases hdecided.compared with ⟨works, hworks⟩
      have hfits := (hinv.within_comparedWork hwork hfresh s (Quiet.refl hinv.chain.store)).2
      rw [hworks] at hfits
      exact ⟨fun _ => .inr ⟨comparedWork_notGenesis hinv.chain hfresh hworks, hfits⟩,
        fun _ => ⟨rfl, hstored⟩⟩

end Valid

namespace Sample

open ChainContext ChainContext.Sample

/-- A second child of the genesis block. -/
def rival : BlockHeader := child sample.genesisHeader 9

theorem work_lt (bits : UInt32) : sample.pow.work bits < 2 ^ 256 :=
  Nat.lt_trans bits.toNat_lt (by norm_num)

/-- A test of the state after some headers, each of which found room to spare. -/
def afterHeaders (headers : List BlockHeader) (test : ChainStateInner sample → Bool) :
    Bool :=
  afterTested sample config spareFor headers test

theorem afterHeaders_eq_true {headers : List BlockHeader}
    {test : ChainStateInner sample → Bool}
    (h : afterHeaders headers test = true) :
    ∃ start s, new sample (createChainStore config) none = .ok start ∧
      HeaderRun AcceptReady start s ∧ HeaderInv (indexBits config) s ∧
      s = (acceptHeaders headers start).2 ∧
      test s = true :=
  afterTested_eq_true rounds (by decide +kernel) id
    (fun hinv => acceptReady_of_spare hinv.chain) h

end Sample

open Sample ChainContext in
/-- A fork out of an inner block is accepted. -/
theorem acceptHeader_admits_inner :
    ∃ start s, new sample (createChainStore Sample.config) none =
        .ok start ∧ HeaderRun AcceptReady start s ∧ s = (acceptHeaders [a₁, a₂] start).2 ∧
      b₂.prevBlockhash ≠ s.bestBlock.bestBlock ∧ Admits s b₂ := by
  have hrun : afterHeaders [a₁, a₂] (fun s => spareFor s b₂ &&
      decide ((getHeader (sample.blockHash b₂) s.chainstore).1 = .ok none ∧
        (validateHeader b₂ s).1 = .ok (sample.blockHash b₂) ∧
        b₂.prevBlockhash ≠ s.bestBlock.bestBlock ∧
        b₂.prevBlockhash ≠ sample.genesisHash ∧
        ∀ epoch < s.bestBlock.depth / 2016 + 1,
          epochTotal s s.bestBlock.depth epoch < 2 ^ 256)) = true := by decide +kernel
  rcases afterHeaders_eq_true hrun with ⟨start, s, hnew, hreach, hinv, hs, htest⟩
  rcases Bool.and_eq_true_iff.mp htest with ⟨hspare, htest⟩
  rcases of_decide_eq_true htest with ⟨hunknown, hvalid, hprev, hparent, hfits⟩
  refine ⟨start, s, hnew, hreach, hs, hprev, ?_⟩
  exact (acceptHeader_admits_iff work_lt (created hnew) hreach
    (acceptReady_of_spare hinv.chain hspare) hunknown hvalid).mpr (.inr ⟨hparent, hfits⟩)

open Sample ChainContext in
/-- After one block, a second child of the genesis block passes `validate_header` and is refused,
although the store has room for it. -/
theorem acceptHeader_refuses_rival :
    ∃ start s, new sample (createChainStore Sample.config) none =
        .ok start ∧ HeaderRun AcceptReady start s ∧ s = (acceptHeaders [a₁] start).2 ∧
      AcceptReady s rival ∧
      (getHeader (sample.blockHash rival) s.chainstore).1 = .ok none ∧
      (validateHeader rival s).1 = .ok (sample.blockHash rival) ∧
      (acceptHeader rival s).1 =
        .error (.error (.invalidTip "Couldn't find a fork point")) ∧ ¬ Admits s rival := by
  have hrun : afterHeaders [a₁] (fun s => spareFor s rival &&
      decide ((getHeader (sample.blockHash rival) s.chainstore).1 = .ok none ∧
        (validateHeader rival s).1 = .ok (sample.blockHash rival) ∧
        (acceptHeader rival s).1 =
          .error (.error (.invalidTip "Couldn't find a fork point")))) = true := by decide +kernel
  rcases afterHeaders_eq_true hrun with ⟨start, s, hnew, hreach, hinv, hs, htest⟩
  rcases Bool.and_eq_true_iff.mp htest with ⟨hspare, htest⟩
  rcases of_decide_eq_true htest with ⟨hunknown, hvalid, herror⟩
  refine ⟨start, s, hnew, hreach, hs, acceptReady_of_spare hinv.chain hspare, hunknown, hvalid,
    herror, ?_⟩
  intro hadmits
  have hok := hadmits.1
  rw [herror] at hok
  cases hok

end Floresta.ChainState
