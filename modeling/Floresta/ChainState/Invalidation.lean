import Floresta.ChainState.Ancestors
import Floresta.ChainState.SavedRoots

/-!
# Invalidation — what `invalidate_block` takes off the chain

The call walks the heights of the best chain from the height of a block on, marks what it finds
there as invalid, and makes the parent of the block the tip.  For a block of the best chain these are
the block and the part of the chain above it, and no later call puts them back but a `switch_chain`
to a marked block: any other branch with a marked block in it has no fork point.  Validation is not
taken back, so the block has to be above the validation index.
-/

namespace Floresta.ChainState

open Prog FlatChainStore

variable {C : ChainContext} {k : Nat} {s s' start : ChainStateInner C} {x : BlockHash}
  {d : DiskBlockHeader} {s₀ : ChainStateInner C}

/-! ## Steps that keep the marks -/

/-- A call that does not switch to a block that is marked as invalid. -/
def Call.Cautious (s : ChainStateInner C) : Call C → Prop
  | .switchChain newTip => ∀ h, s.view newTip ≠ some (.invalidChain h)
  | _ => True

inductive CautiousStep (s : ChainStateInner C) : ChainStateInner C → Prop
  | call (call : Call C) : call.Ready s → call.Cautious s → CautiousStep s (call.run s)

theorem Invalidated.invalid {f : Nat} {tip : BlockHash} (h : Invalidated k f s tip s') :
    KeepsInvalid s.view s'.view := by
  intro x header hx
  rw [h.rest x fun d n hd => absurd hx (hd.notInvalid header)]
  exact hx

theorem Effect.invalid {call : Call C} (h : Effect k s call s') (hcautious : call.Cautious s) :
    KeepsInvalid s.view s'.view := by
  cases h with
  | revalidated h => exact h.persists.invalid
  | @accepted header f _ _ hentered =>
    have hnew : ∀ {n}, Fresh s header n → ∀ h,
        s.view (C.blockHash header) ≠ some (.invalidChain h) := by
      intro n hfresh h hx
      rw [hfresh.new] at hx
      cases hx
    cases hentered with
    | known _ hquiet => exact hquiet.view ▸ Persists.refl.invalid
    | extended hfresh _ hextended =>
      rw [hextended.view]
      exact KeepsInvalid.update (hnew hfresh) _
    | decided hfresh _ _ _ hdecided =>
      cases hdecided with
      | forked _ _ hforked =>
        rw [hforked.view]
        exact KeepsInvalid.update (hnew hfresh) _
      | switched _ _ hswitched =>
        intro x h hx
        refine hswitched.invalid x h hx ?_
        rintro rfl
        exact hnew hfresh h hx
  | invalidated h => exact h.invalid
  | switched _ _ hswitched =>
    intro x header hx
    refine hswitched.invalid x header hx ?_
    rintro rfl
    exact hcautious header hx

/-- Such calls do not break the chain, forget a header, or forget that a header is invalid. -/
theorem cautious_spec (hinv : ChainInv k start)
    (h : Relation.ReflTransGen CautiousStep start s) :
    ChainInv k s ∧ Persists start.view s.view := by
  induction h with
  | refl => exact ⟨hinv, Persists.refl⟩
  | tail _ hstep ih =>
    rcases hstep with ⟨call, hready, hcautious⟩
    rcases Call.effect ih.1 hready with ⟨hnext, heffect⟩
    exact ⟨hnext, ih.2.trans ⟨heffect.keeps, heffect.invalid hcautious⟩⟩

/-! ## The best chain seen from outside -/

/-- The block is the best block or one of its ancestors. -/
def UnderTip (s : ChainStateInner C) (x : BlockHash) : Prop :=
  Descends C (storedHeaders s) x s.bestBlock.bestBlock

theorem underTip_iff (hinv : ChainInv k s) : UnderTip s x ↔ ∃ d n, OnChain s.view x d n := by
  unfold UnderTip
  rw [storedHeaders_eq hinv.store]
  rcases hinv.best with ⟨b, hb⟩
  refine ⟨fun h => ?_, ?_⟩
  · rcases hinv.settled.ancestor hinv.tree h hb with ⟨e, m, he, -⟩
    exact ⟨e, m, he⟩
  · rintro ⟨d, n, hd⟩
    exact hinv.settled.descends hinv.tree hd hb (hinv.settled.capped hd)

/-- The validation index names a fully valid block of the best chain, and the accumulator is the one
that was saved for it. -/
structure ValidationIntact (s : ChainStateInner C) : Prop where
  valid : ∃ header v, storedHeaders s s.bestBlock.validationIndex = some (.fullyValid header v)
  chain : UnderTip s s.bestBlock.validationIndex
  acc : (reorgAcc s.bestBlock.validationIndex s).1 = .ok s.acc

/-! ### Saved accumulators -/

/-- The state has the accumulators of another one, and the same header for one hash. -/
@[mk_iff]
structure SameRoots (k : Nat) (s₀ : ChainStateInner C) (x : BlockHash) (s : ChainStateInner C) :
    Prop where
  inv : StoreInv C.bitcoin C.genesisHash k s.chainstore
  entry : s.view x = s₀.view x
  headers : s.chainstore.headers = s₀.chainstore.headers
  accumulatorFile : s.chainstore.accumulatorFile = s₀.chainstore.accumulatorFile
  headersFileSize : s.chainstore.metadata.headersFileSize = s₀.chainstore.metadata.headersFileSize

theorem SameRoots.quiet (h : SameRoots k s₀ x s)
    (hs : Quiet k s s') : SameRoots k s₀ x s' := by
  rw [sameRoots_iff, hs.view, hs.headers, hs.accumulatorFile, hs.metadata]
  exact ⟨hs.inv, ((sameRoots_iff ..).mp h).2⟩

/-- What `invalidate_block` is for: from now on the best block does not have the block under it, and
nothing else is touched. -/
structure Removed (s : ChainStateInner C) (b : BlockHash) (s' : ChainStateInner C) : Prop where
  marked : ∃ h, storedHeaders s' b = some (.invalidChain h)
  /-- in no later state is the block or a descendant the best block or under it, unless a caller
  switches to a block that is marked as invalid -/
  never : ∀ t, Relation.ReflTransGen CautiousStep s' t →
    ∀ x, Descends C (storedHeaders s') b x → ¬ UnderTip t x
  others : ∀ x d, storedHeaders s x = some d → ¬ Descends C (storedHeaders s) b x →
    storedHeaders s' x = some d
  /-- the best block and its ancestors are valid -/
  chain : UnderTip s' s'.bestBlock.bestBlock ∧
    ∀ x, UnderTip s' x → ∃ d, storedHeaders s' x = some d ∧ d.isActive = true
  validation : ValidationIntact s'

section Invalidated

variable {f : Nat} {tip b : BlockHash}

theorem Invalidated.validationIndex (h : Invalidated k f s tip s') :
    s'.bestBlock.validationIndex = s.bestBlock.validationIndex := by rw [h.same]

theorem Invalidated.removed (hinv : ChainInv k s)
    (hd : OnChain s.view b d (f + 1))
    (h : Invalidated k f s d.header.prevBlockhash s') (hvalidation : ValidationIntact s') :
    Removed s b s' := by
  have hinv' := h.inv hinv hd
  have hmarked := h.lost hd (Nat.lt_succ_self f)
  refine ⟨⟨d.header, ?_⟩, ?_, ?_, ⟨?_, ?_⟩, hvalidation⟩
  · rw [storedHeaders_eq hinv'.store]
    exact hmarked
  · intro t ht x hx hunder
    rcases cautious_spec hinv' ht with ⟨hinvt, hpersists⟩
    rw [storedHeaders_eq hinv'.store] at hx
    -- the block would be under the tip as well, but it is still marked
    have hb : UnderTip t b := by
      unfold UnderTip at hunder ⊢
      rw [storedHeaders_eq hinvt.store] at hunder ⊢
      exact (hx.keeps hpersists.keeps).trans hunder
    rcases (underTip_iff hinvt).mp hb with ⟨e, n, he⟩
    exact he.notInvalid d.header (hpersists.invalid b d.header hmarked)
  · intro x e he hnot
    rw [storedHeaders_eq hinv.store] at he hnot
    rw [storedHeaders_eq hinv'.store, h.rest x fun a n ha => ?_]
    · exact he
    · by_contra hlt
      exact hnot (hinv.settled.descends hinv.tree hd ha (by omega))
  · exact (underTip_iff hinv').mpr (hinv'.best.imp fun _ hb => ⟨_, hb⟩)
  · intro x hx
    rcases (underTip_iff hinv').mp hx with ⟨e, n, he⟩
    refine ⟨e, ?_, he.active⟩
    rw [storedHeaders_eq hinv'.store]
    exact he.entry

end Invalidated

theorem ChainInv.stored_height_ne_zero (hinv : ChainInv k s)
    {n : Nat} (hd : s.view x = some d) (hn : d.height = some n)
    (hx : x ≠ C.genesisHash) : n ≠ 0 := by
  rcases hinv.candidate hd hx with ⟨m, hcandidate⟩
  rcases hinv.tree.rooted x d hd with ⟨i, -, hbranch, hheight⟩
  rw [hheight n hn, hbranch.unique hcandidate.branch]
  exact Nat.succ_ne_zero m

theorem HeaderRun.reaches (h : HeaderRun AcceptReady start s) : Reaches start s := by
  induction h with
  | start => exact .refl
  | step header _ hready ih => exact ih.tail (.call (.acceptHeader header) hready)

namespace Sample

instance : DecidableEq ChainContext.sample.rustreexo.Stump := inferInstanceAs (DecidableEq Bytes)

def connected (start : ChainStateInner ChainContext.sample) : ChainStateInner ChainContext.sample :=
  (connect block₁ (acceptHeaders [block₁.header, block₂.header] start).2).2

end Sample

section Validation

variable {config : FlatChainStoreConfig} (hnew : Created config start)

include hnew

/-- In reached states, `verify_script` skips blocks only up to an assume-valid one under the tip. -/
theorem verifyScript_skips (hreach : Reaches start s) {height : Nat}
    (hskip : (verifyScript height s).1 = .ok false) :
    ∃ x d n, s.assumeValid = some x ∧ UnderTip s x ∧ storedHeaders s x = some d ∧
      d.height = some n ∧ height ≤ n := by
  have hinv := hreach.inv (new_inv hnew.isNew)
  rw [storedHeaders_eq hinv.store]
  revert hskip
  change wp (verifyScript height) (fun r _ => r = .ok false → _) s
  unfold verifyScript
  rw [wp_read_bind]
  cases s.assumeValid with
  | none => rintro ⟨⟩
  | some x =>
    refine wp_bind.mpr ((within_getHeader x).yields (Quiet.refl hinv.store) fun s' hs => ?_)
    rw [andThen_ok]
    cases hd : s.view x with
    | none => rintro ⟨⟩
    | some d =>
      cases d with
      | headersOnly h n | fullyValid h n =>
        intro hskip
        have hle := of_decide_eq_false (Except.ok.inj hskip)
        have hunder := (underTip_iff hinv).mpr ⟨_, n, hd, rfl, rfl⟩
        exact ⟨x, _, n, rfl, hunder, hd, rfl, Nat.not_lt.mp hle⟩
      -- no other header makes it skip
      | _ => rintro ⟨⟩

/-- While headers are accepted and blocks connected and flushed, the blocks up to the validation
index are validated, and no others under the tip. -/
theorem validated_iff_le {saved : BlockHash → Option Bytes}
    (hnonempty : ∀ acc, C.rustreexo.serialize acc ≠ []) (hrun : RootsRun start s saved) :
    ∃ v, (getValidationIndex s).1 = .ok v ∧ ∀ x d n, UnderTip s x → storedHeaders s x = some d →
      d.height = some n → (isValidated d = true ↔ n ≤ v) := by
  rcases hrun.inv hnonempty (new_rootsInv hnew.isNew) with ⟨v, hinv⟩
  rw [storedHeaders_eq hinv.chain.store]
  refine ⟨v, hinv.getValidationIndex_eq, fun x d n hunder hd hn => ?_⟩
  rcases (underTip_iff hinv.chain).mp hunder with ⟨e, m, he⟩
  exact hinv.validated ⟨hd, he.entry_eq hd ▸ he.active, hn⟩

end Validation

open Sample ChainContext in
/-- The first block is the assume-valid one. -/
theorem verifyScript_skips_first :
    ∃ s : ChainStateInner sample, ∃ x d n, s.assumeValid = some x ∧ UnderTip s x ∧
      storedHeaders s x = some d ∧ d.height = some n ∧ 1 ≤ n := by
  have hrun : (new sample (createChainStore Sample.config)
      (some (sample.blockHash a₁))).toOption.any (fun s => decide (readyOnTip s a₁ ∧
        (verifyScript 1 (acceptHeader a₁ s).2).1 = .ok false)) = true := by decide +kernel
  rcases Fallible.exists_of_any hrun with ⟨start, hnew, htest⟩
  rcases of_decide_eq_true htest with ⟨hready, hskip⟩
  exact ⟨_, verifyScript_skips ⟨rounds, by decide +kernel, _, hnew⟩
    (.single (.call (.acceptHeader a₁) (acceptReady_of_onTip hready))) hskip⟩

open Sample ChainContext in
/-- After a reorganisation, the blocks of the new branch are validated up to the one that was
connected. -/
theorem validated_iff_le_first :
    ∃ start s saved, new sample (createChainStore Sample.config) none = .ok start ∧
      replay reorganised start = some s ∧ RootsRun start s saved ∧
      s.bestBlock.bestBlock = sample.blockHash fork₃.header ∧
      s.view (sample.blockHash block₂.header) = some (.inFork block₂.header 2) ∧
      (getValidationIndex s).1 = .ok 2 ∧
      ∀ x d n, UnderTip s x → storedHeaders s x = some d → d.height = some n →
        (isValidated d = true ↔ n ≤ 2) := by
  rcases exists_reorganised with ⟨start, s, saved, hnew, hs, hrun, htip, hfork, hindex⟩
  refine ⟨start, s, saved, hnew, hs, hrun, htip, hfork, hindex, ?_⟩
  rcases validated_iff_le (created hnew) serialize_ne_nil hrun with ⟨v, hv, hall⟩
  cases hindex.symm.trans hv
  exact hall

end Floresta.ChainState
