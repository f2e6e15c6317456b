import Floresta.ChainState.Reading

/-!
# Branches — the tree of stored headers

Every stored header has a stored parent, down to the genesis block.  `Branch` counts the blocks of
such a walk, `Descent` is the walk that looks for a fork point, and `Tree` says that the headers of a
map form a tree in which stored heights are the lengths of these walks.  The loops of the chain state
that follow `prev_blockhash` then end, and return what the walks say.
-/

namespace Floresta

variable {stop : DiskBlockHeader → Bool} {d : DiskBlockHeader} {n : Nat} {E : Fault → Prop}
  {x : BlockHash} {e : DiskBlockHeader}
variable {h y : BlockHeader} {m : Nat}

/-- What the store looks like from outside. -/
abbrev HeaderMap := BlockHash → Option DiskBlockHeader

namespace ChainState

open Prog FlatChainStore

/-! ## Walks -/

/-- The header has `n` ancestors, the last of which is the genesis block. -/
inductive Branch (C : ChainContext) (V : HeaderMap) : BlockHeader → Nat → Prop
  | genesis {h : BlockHeader} : isGenesis C h = true → Branch C V h 0
  | child {h : BlockHeader} {d : DiskBlockHeader} {n : Nat} :
      isGenesis C h = false → V h.prevBlockhash = some d → Branch C V d.header n →
      Branch C V h (n + 1)

/-- The header and its ancestors, back to the genesis block. -/
inductive Lineage (C : ChainContext) (V : HeaderMap) : BlockHeader → List BlockHeader → Prop
  | genesis {h : BlockHeader} : isGenesis C h = true → Lineage C V h [h]
  | child {h : BlockHeader} {d : DiskBlockHeader} {l : List BlockHeader} :
      isGenesis C h = false → V h.prevBlockhash = some d → Lineage C V d.header l →
      Lineage C V h (h :: l)

/-- The second block is the first one, or has it among its ancestors. -/
inductive Descends (C : ChainContext) (V : HeaderMap) (b : BlockHash) : BlockHash → Prop
  | self {d : DiskBlockHeader} : V b = some d → Descends C V b b
  | child {x : BlockHash} {d : DiskBlockHeader} : V x = some d → isGenesis C d.header = false →
      Descends C V b d.header.prevBlockhash → Descends C V b x

/-- The second header is the `n`-th ancestor of the first. -/
inductive Above (V : HeaderMap) (y : BlockHeader) : BlockHeader → Nat → Prop
  | self : Above V y y 0
  | child {h : BlockHeader} {d : DiskBlockHeader} {n : Nat} :
      V h.prevBlockhash = some d → Above V y d.header n → Above V y h (n + 1)

/-- `d` is the `n`-th ancestor of `h`, and the search passed those between them. -/
inductive Descent (V : HeaderMap) (stop : DiskBlockHeader → Bool) (h : BlockHeader) :
    DiskBlockHeader → Nat → Prop
  | parent {d : DiskBlockHeader} : V h.prevBlockhash = some d → Descent V stop h d 1
  | next {d e : DiskBlockHeader} {n : Nat} :
      Descent V stop h d n → stop d = false → V d.header.prevBlockhash = some e →
      Descent V stop h e (n + 1)

/-- The second map has every header of the first, possibly in another state. -/
def Keeps (V V' : HeaderMap) : Prop :=
  ∀ x d, V x = some d → ∃ d', V' x = some d' ∧ d'.header = d.header

/-- The headers that are marked as invalid in the first map are so in the second. -/
def KeepsInvalid (V V' : HeaderMap) : Prop :=
  ∀ x h, V x = some (.invalidChain h) → V' x = some (.invalidChain h)

/-- The stored headers and the marks of invalid ones are kept. -/
structure Persists (V V' : HeaderMap) : Prop where
  keeps : Keeps V V'
  invalid : KeepsInvalid V V'

/-- The second map has no header that the first one has not. -/
def Unadded (V V' : HeaderMap) : Prop := ∀ x, V x = none → V' x = none

variable {C : ChainContext} {V V' : HeaderMap}

theorem Unadded.refl : Unadded V V := fun _ hx => hx

theorem KeepsInvalid.update (h : ∀ header, V x ≠ some (.invalidChain header))
    (e : DiskBlockHeader) : KeepsInvalid V (Function.update V x (some e)) := by
  intro y header hy
  have hne : y ≠ x := by
    rintro rfl
    exact h header hy
  rw [Function.update_of_ne hne]
  exact hy

theorem Keeps.trans {V'' : HeaderMap} (h : Keeps V V') (h' : Keeps V' V'') : Keeps V V'' := by
  intro x d hd
  rcases h x d hd with ⟨d', hd', heq⟩
  rcases h' x d' hd' with ⟨d'', hd'', heq'⟩
  exact ⟨d'', hd'', heq'.trans heq⟩

theorem Keeps.update
    (h : ∀ d, V x = some d → e.header = d.header) : Keeps V (Function.update V x (some e)) := by
  intro y d hd
  by_cases hy : y = x
  · subst hy
    exact ⟨e, Function.update_self .., h d hd⟩
  · exact ⟨d, by rw [Function.update_of_ne hy, hd], rfl⟩

theorem Branch.unique {n : Nat} (hn : Branch C V h n) (hm : Branch C V h m) :
    n = m := by
  induction hn generalizing m with
  | genesis hg =>
    cases hm with
    | genesis _ => rfl
    | child hg' _ _ =>
      rw [hg] at hg'
      cases hg'
  | child hg hd _ ih =>
    cases hm with
    | genesis hg' =>
      rw [hg] at hg'
      cases hg'
    | child _ hd' hbranch =>
      rw [hd] at hd'
      cases hd'
      rw [ih hbranch]

theorem Branch.parent (hn : Branch C V h n)
    (hg : isGenesis C h = false) (hd : V h.prevBlockhash = some d) :
    ∃ m < n, n = m + 1 ∧ Branch C V d.header m := by
  cases hn with
  | genesis hg' =>
    rw [hg] at hg'
    cases hg'
  | @child _ d' m _ hd' hbranch =>
    rw [hd] at hd'
    cases hd'
    exact ⟨m, Nat.lt_succ_self m, rfl, hbranch⟩

theorem Branch.stored (hn : Branch C V h n) (hg : isGenesis C h = false) :
    ∃ d m, V h.prevBlockhash = some d ∧ m < n ∧ Branch C V d.header m := by
  cases hn with
  | genesis hg' =>
    rw [hg] at hg'
    cases hg'
  | child _ hd hbranch => exact ⟨_, _, hd, Nat.lt_succ_self _, hbranch⟩

theorem Branch.keeps (hn : Branch C V h n) (hk : Keeps V V') :
    Branch C V' h n := by
  induction hn with
  | genesis hg => exact .genesis hg
  | child hg hd _ ih =>
    rcases hk _ _ hd with ⟨d', hd', heq⟩
    exact .child hg hd' (heq ▸ ih)

namespace Lineage

variable {h y : BlockHeader} {l l' : List BlockHeader}

theorem ne_nil (hl : Lineage C V h l) : l ≠ [] := by
  cases hl with
  | genesis => exact List.cons_ne_nil _ _
  | child => exact List.cons_ne_nil _ _

theorem exists_of_branch (hn : Branch C V h n) :
    ∃ l, Lineage C V h l ∧ l.length = n + 1 := by
  induction hn with
  | genesis hg => exact ⟨_, .genesis hg, rfl⟩
  | child hg hd _ ih =>
    rcases ih with ⟨l, hl, hlength⟩
    exact ⟨_, .child hg hd hl, congrArg Nat.succ hlength⟩

theorem unique (hl : Lineage C V h l) (hl' : Lineage C V h l') : l = l' := by
  induction hl generalizing l' with
  | genesis hg =>
    cases hl' with
    | genesis => rfl
    | child hg' =>
      rw [hg] at hg'
      cases hg'
  | child hg hd _ ih =>
    cases hl' with
    | genesis hg' =>
      rw [hg] at hg'
      cases hg'
    | child _ hd' hl' =>
      rw [Option.some.inj (hd'.symm.trans hd)] at hl'
      rw [ih hl']

theorem length_eq (hl : Lineage C V h l) (hn : Branch C V h n) : l.length = n + 1 := by
  rcases exists_of_branch hn with ⟨l', hl', hlength⟩
  rw [hl.unique hl', hlength]

theorem keeps (hl : Lineage C V h l) (hk : Keeps V V') : Lineage C V' h l := by
  induction hl with
  | genesis hg => exact .genesis hg
  | child hg hd _ ih =>
    rcases hk _ _ hd with ⟨d', hd', heq⟩
    refine .child hg hd' ?_
    rw [heq]
    exact ih

end Lineage

theorem Persists.refl : Persists V V := ⟨fun _ d hd => ⟨d, hd, rfl⟩, fun _ _ hx => hx⟩

theorem Persists.trans {V'' : HeaderMap} (h : Persists V V') (h' : Persists V' V'') :
    Persists V V'' :=
  ⟨h.keeps.trans h'.keeps, fun x header hx => h'.invalid x header (h.invalid x header hx)⟩

theorem Descends.trans {a b x : BlockHash} (h : Descends C V a b) (h' : Descends C V b x) :
    Descends C V a x := by
  induction h' with
  | self _ => exact h
  | child hd hg _ ih => exact .child hd hg ih

theorem Descends.keeps {b x : BlockHash} (h : Descends C V b x) (hk : Keeps V V') :
    Descends C V' b x := by
  induction h with
  | self hd =>
    rcases hk _ _ hd with ⟨d', hd', -⟩
    exact .self hd'
  | child hd hg _ ih =>
    rcases hk _ _ hd with ⟨d', hd', heq⟩
    exact .child hd' (heq ▸ hg) (heq ▸ ih)

theorem Above.keeps (hn : Above V y h n) (hk : Keeps V V') :
    Above V' y h n := by
  induction hn with
  | self => exact .self
  | child hd _ ih =>
    rcases hk _ _ hd with ⟨d', hd', heq⟩
    exact .child hd' (heq ▸ ih)

theorem Above.snoc (hn : Above V y h n)
    (he : V y.prevBlockhash = some e) : Above V e.header h (n + 1) := by
  induction hn with
  | self => exact .child he .self
  | child hd _ ih => exact .child hd ih

theorem Above.unique {z : BlockHeader} (hy : Above V y h n) (hz : Above V z h n) :
    y = z := by
  induction hy with
  | self =>
    cases hz with
    | self => rfl
  | child hd _ ih =>
    cases hz with
    | child hd' hrest =>
      rw [hd] at hd'
      cases hd'
      exact ih hrest

theorem Descent.above (hn : Descent V stop h d n) : Above V d.header h n := by
  induction hn with
  | parent hd => exact .child hd .self
  | next _ _ he ih => exact ih.snoc he

theorem Descent.pos (hn : Descent V stop h d n) : 0 < n := by
  cases hn with
  | parent _ => exact Nat.one_pos
  | next _ _ _ => exact Nat.succ_pos _

theorem Descent.stored (hn : Descent V stop h d n) : ∃ x, V x = some d := by
  cases hn with
  | parent hd => exact ⟨_, hd⟩
  | next _ _ he => exact ⟨_, he⟩

theorem Descent.exists_at {n : Nat} (hn : Descent V stop h d n) (hpos : 0 < m) (hm : m ≤ n) :
    ∃ e, Descent V stop h e m := by
  induction hn with
  | parent hd =>
    obtain rfl : m = 1 := Nat.le_antisymm hm hpos
    exact ⟨_, .parent hd⟩
  | @next d e n hrest hpass he ih =>
    by_cases heq : m = n + 1
    · subst heq
      exact ⟨e, .next hrest hpass he⟩
    · exact ih (by omega)

theorem Descent.same {d e : DiskBlockHeader}
    (hd : Descent V stop h d n) (he : Descent V stop h e n) : d = e := by
  induction hd generalizing e with
  | parent hd =>
    cases he with
    | parent he => exact Option.some.inj (hd.symm.trans he)
    | next hrest _ _ => exact absurd hrest.pos (Nat.lt_irrefl 0)
  | next hrest _ hd ih =>
    cases he with
    | parent _ => exact absurd hrest.pos (Nat.lt_irrefl 0)
    | next hrest' _ he =>
      rw [ih hrest'] at hd
      exact Option.some.inj (hd.symm.trans he)

theorem Descent.passed {d e : DiskBlockHeader}
    {n : Nat} (hd : Descent V stop h d n) (he : Descent V stop h e m) (hlt : m < n) :
    stop e = false := by
  induction hd with
  | parent _ =>
    have hpos := he.pos
    omega
  | @next d' _ n' hrest hpass _ ih =>
    by_cases hm : m = n'
    · subst hm
      rw [← hrest.same he]
      exact hpass
    · exact ih (by omega)

theorem Descent.unique {d e : DiskBlockHeader}
    {n : Nat} (hd : Descent V stop h d n) (hstop : stop d = true) (he : Descent V stop h e m)
    (hstop' : stop e = true) : d = e := by
  rcases Nat.lt_trichotomy n m with hlt | rfl | hlt
  · rw [he.passed hd hlt] at hstop
    cases hstop
  · exact hd.same he
  · rw [hd.passed he hlt] at hstop'
    cases hstop'

/-! ## The tree -/

/-- The headers of a map form a tree over the genesis block, at most `bound` blocks high. -/
structure Tree (C : ChainContext) (V : HeaderMap) (bound : Nat) : Prop where
  genesis : V C.genesisHash = some (.fullyValid C.genesisHeader 0)
  hash : ∀ x d, V x = some d → C.blockHash d.header = x
  rooted : ∀ x d, V x = some d →
    ∃ n ≤ bound, Branch C V d.header n ∧ ∀ m, d.height = some m → m = n

namespace Tree

variable {bound : Nat}

section

variable (t : Tree C V bound)

include t

theorem lookup (h : V x = some d) : V (C.blockHash d.header) = some d := by
  rw [t.hash x d h]
  exact h

theorem notGenesis (h : V x = some d) (hne : d ≠ .fullyValid C.genesisHeader 0) :
    isGenesis C d.header = false := by
  have hhash := t.hash x d h
  by_contra hg
  have heq : C.blockHash d.header = C.genesisHash := by simpa [isGenesis] using hg
  have hd := t.genesis
  rw [← heq, hhash, h] at hd
  exact hne (Option.some.inj hd)

/-- The headers a search passed are above the genesis block, so its walk is part of the branch. -/
theorem descent_branch (hstop : stop (.fullyValid C.genesisHeader 0) = true) (hn : Branch C V h n)
    (hg : isGenesis C h = false) {j : Nat} (hd : Descent V stop h d j) :
    ∃ m, Branch C V d.header m ∧ n = m + j := by
  induction hd with
  | parent hd =>
    rcases hn.parent hg hd with ⟨m, -, rfl, hbranch⟩
    exact ⟨m, hbranch, rfl⟩
  | next hdesc hpass he ih =>
    rcases ih with ⟨m, hbranch, rfl⟩
    rcases hdesc.stored with ⟨x, hx⟩
    have hne := t.notGenesis hx (by
      rintro rfl
      rw [hstop] at hpass
      cases hpass)
    rcases hbranch.parent hne he with ⟨m', -, rfl, hbranch'⟩
    exact ⟨m', hbranch', by omega⟩

theorem descent_descends (hstop : stop (.fullyValid C.genesisHeader 0) = true) (he : V x = some e)
    (hg : isGenesis C e.header = false) {j : Nat} (hd : Descent V stop e.header d j) :
    Descends C V (C.blockHash d.header) x := by
  induction hd with
  | parent hd =>
    rw [t.hash _ _ hd]
    exact .child he hg (.self hd)
  | @next d e' n hdesc hpass he' ih =>
    rcases hdesc.stored with ⟨y, hy⟩
    have hne := t.notGenesis hy (by
      rintro rfl
      rw [hstop] at hpass
      cases hpass)
    rw [t.hash _ _ he']
    exact (Descends.child (t.lookup hy) hne (.self he')).trans ih

theorem branch_child (hg : isGenesis C h = false) (hd : V h.prevBlockhash = some d)
    (hn : d.height = some n) : Branch C V h (n + 1) ∧ n ≤ bound := by
  rcases t.rooted _ _ hd with ⟨m, hm, hbranch, hheight⟩
  rw [hheight n hn]
  exact ⟨.child hg hd hbranch, hm⟩

/-- Adding a header on a stored one, or changing the state of a header, keeps the tree. -/
theorem update (hkeep : ∀ d, V (C.blockHash e.header) = some d → e.header = d.header)
    (hg : isGenesis C e.header = false) (hbranch : Branch C V e.header n)
    (hheight : ∀ m, e.height = some m → m = n) {bound' : Nat} (hbound : bound ≤ bound')
    (hn : n ≤ bound') : Tree C (Function.update V (C.blockHash e.header) (some e)) bound' := by
  have hkeeps := Keeps.update hkeep
  refine ⟨?_, ?_, ?_⟩
  · have hne : C.genesisHash ≠ C.blockHash e.header := by
      intro heq
      simp [isGenesis, heq] at hg
    rw [Function.update_of_ne hne]
    exact t.genesis
  · intro x d hd
    by_cases hx : x = C.blockHash e.header
    · subst hx
      rw [Function.update_self] at hd
      cases hd
      rfl
    · rw [Function.update_of_ne hx] at hd
      exact t.hash x d hd
  · intro x d hd
    by_cases hx : x = C.blockHash e.header
    · subst hx
      rw [Function.update_self] at hd
      cases hd
      exact ⟨n, hn, hbranch.keeps hkeeps, hheight⟩
    · rw [Function.update_of_ne hx] at hd
      rcases t.rooted x d hd with ⟨m, hm, hb, hh⟩
      exact ⟨m, Nat.le_trans hm hbound, hb.keeps hkeeps, hh⟩

end

end Tree

/-! ## The loops of the chain state -/

section Loops

variable {k : Nat} {s₀ : ChainStateInner C}

def walkRounds (s : ChainStateInner C) : Nat :=
  s.chainstore.metadata.headersFileSize + s.chainstore.metadata.forkFileSize + 3

theorem Quiet.walkRounds_eq {s : ChainStateInner C} (h : Quiet k s₀ s) :
    walkRounds s = walkRounds s₀ := by
  unfold walkRounds
  rw [h.metadata]

theorem within_walk {α β : Type} {body : α → ChainM C (α ⊕ β)}
    {P : Nat → α → Prop} {R : β → Prop}
    (hbody : ∀ n a, P n a → Within (Quiet k s₀) E (body a)
      (Sum.elim (fun a' => ∃ n' < n, P n' a') R))
    {a : α} (ha : P n a) (hn : n < walkRounds s₀) :
    Within (Quiet k s₀) E (walk body a) R := by
  intro s hs
  rw [← hs.walkRounds_eq] at hn
  exact Within.loop hbody ha hn s hs

/-- A kind of error that is raised only where a header without a height is stored. -/
def OnlyOrphans (s₀ : ChainStateInner C) (E : Fault → Prop) : Prop :=
  ∀ x d, s₀.view x = some d → d.height = none → ∀ e, E (.error e)

theorem onlyOrphans_proper : OnlyOrphans s₀ Proper := fun _ _ _ _ e => ⟨e, rfl⟩

theorem within_checkBranch (hE : OnlyOrphans s₀ E)
    (hn : Branch C s₀.view h n) (hbound : n < walkRounds s₀) :
    Within (Quiet k s₀) E (checkBranch h : ChainM C _) fun _ => True := by
  refine within_walk (P := fun n h => Branch C s₀.view h n) (fun n h hn => ?_) hn hbound
  refine Within.ite (fun _ => Within.pure trivial) fun hg => ?_
  rcases hn.stored (Bool.eq_false_iff.mpr hg) with ⟨d, m, hd, hm, hbranch⟩
  refine Within.bind_eq (within_getDiskBlockHeader_stored hd) ?_
  cases d with
  | orphan block => exact Within.fail (hE _ _ hd rfl _)
  | fullyValid _ _ => exact Within.pure ⟨m, hm, hbranch⟩
  | assumedValid _ _ => exact Within.pure ⟨m, hm, hbranch⟩
  | headersOnly _ _ => exact Within.pure ⟨m, hm, hbranch⟩
  | inFork _ _ => exact Within.pure ⟨m, hm, hbranch⟩
  | invalidChain _ => exact Within.pure ⟨m, hm, hbranch⟩

theorem within_getChainDepth (hn : Branch C s₀.view h n) (hbound : n < walkRounds s₀) :
    Within (Quiet k s₀) E (getChainDepth h : ChainM C _) (· = n) := by
  -- what was counted and what is left add up to the length of the branch
  refine within_walk (P := fun m (p : BlockHeader × Nat) =>
    Branch C s₀.view p.1 m ∧ p.2 + m = n) (fun m p hp => ?_)
    ⟨hn, Nat.zero_add n⟩ hbound
  rcases p with ⟨x, count⟩
  rcases hp with ⟨hbranch, hcount⟩
  cases hbranch with
  | genesis hg => exact Within.ite (fun _ => Within.pure hcount) fun hg' => absurd hg hg'
  | @child _ d m hg hd hbranch =>
    refine Within.ite (fun hg' => ?_) fun _ => ?_
    · rw [hg] at hg'
      cases hg'
    · refine Within.bind_eq (within_getDiskBlockHeader_stored hd) (Within.pure ?_)
      exact ⟨m, Nat.lt_succ_self m, hbranch, by omega⟩

/-- The search for the best chain passes fork headers only, up to a distance. -/
def OverForks (V : HeaderMap) (h : BlockHeader) (n : Nat) : Prop :=
  ∀ e i, Descent V DiskBlockHeader.isActive h e i → i < n → ∃ block m, e = .inFork block m

theorem OverForks.next {block : BlockHeader} {n : Nat} (hover : OverForks V h n)
    (hd : Descent V DiskBlockHeader.isActive h (.inFork block m) n) : OverForks V h (n + 1) := by
  intro e i he hi
  by_cases heq : i = n
  · subst heq
    exact ⟨block, m, he.same hd⟩
  · exact hover e i he (by omega)

/-- A fork point is the first best-chain header the search meets; it is not the genesis block, and
the branch above it is one of fork headers. -/
theorem within_findForkPoint (hE : OnlyOrphans s₀ E) {bound : Nat}
    (t : Tree C s₀.view bound) {parent : DiskBlockHeader}
    (hparent : s₀.view h.prevBlockhash = some parent)
    (hgenesis : ∀ d j, Descent s₀.view DiskBlockHeader.isActive h d j →
      isGenesis C d.header = true → ∀ e, E (.error e)) (hbound : bound < walkRounds s₀) :
    Within (Quiet k s₀) E (findForkPoint h : ChainM C _) fun fp =>
      ∃ d j, Descent s₀.view DiskBlockHeader.isActive h d j ∧ d.isActive = true ∧
        d.header = fp ∧ isGenesis C fp = false ∧ OverForks s₀.view h j := by
  refine Within.bind_eq (within_getDiskBlockHeader_stored hparent) ?_
  rcases t.rooted _ _ hparent with ⟨n, hn, hbranch, -⟩
  refine within_walk (P := fun n (x : BlockHeader) => Branch C s₀.view x n ∧
      ∃ d j, Descent s₀.view DiskBlockHeader.isActive h d j ∧ d.header = x ∧ OverForks s₀.view h j)
    (fun n x hx => ?_) ⟨hbranch, parent, 1, .parent hparent, rfl, ?_⟩
    (Nat.lt_of_le_of_lt hn hbound)
  swap
  · intro e i he hi
    have hpos := he.pos
    omega
  rcases hx with ⟨hbranch, d, j, hdesc, rfl, hover⟩
  refine Within.ite (fun hg => Within.fail (hgenesis d j hdesc hg _)) fun hg => ?_
  refine Within.bind (within_getHeader _) fun found hfound => ?_
  rcases hdesc.stored with ⟨x, hx⟩
  rw [t.lookup hx] at hfound
  subst hfound
  have hng : isGenesis C d.header = false := by simpa using hg
  cases d with
  | headersOnly block m => exact Within.pure ⟨_, j, hdesc, rfl, rfl, hng, hover⟩
  | fullyValid block m => exact Within.pure ⟨_, j, hdesc, rfl, rfl, hng, hover⟩
  | assumedValid block m => exact Within.pure ⟨_, j, hdesc, rfl, rfl, hng, hover⟩
  | orphan block => exact Within.fail (hE _ _ hx rfl _)
  | invalidChain block => exact Within.fail (hE _ _ hx rfl _)
  | inFork block m =>
    rcases hbranch.stored hng with ⟨e, m', he, hm', hbranch'⟩
    refine Within.bind_eq (within_getDiskBlockHeader_stored he) (Within.pure ?_)
    exact ⟨m', hm', hbranch', e, j + 1, .next hdesc rfl he, rfl, hover.next hdesc⟩

def isValidated : DiskBlockHeader → Bool
  | .fullyValid _ _ | .assumedValid _ _ => true
  | .headersOnly _ _ | .inFork _ _ | .orphan _ | .invalidChain _ => false

/-- The last valid block is the first validated header the search meets; the genesis block is
one. -/
theorem within_getLastValidBlock (hE : OnlyOrphans s₀ E) {bound : Nat} (t : Tree C s₀.view bound)
    (hn : Branch C s₀.view h n) (hng : isGenesis C h = false)
    (hbound : n < walkRounds s₀) :
    Within (Quiet k s₀) E (getLastValidBlock h : ChainM C _) fun hash =>
      ∃ d j, Descent s₀.view isValidated h d j ∧ isValidated d = true ∧
        C.blockHash d.header = hash := by
  -- a header of the walk is the first one, or one that the search passed
  refine within_walk (P := fun n (x : BlockHeader) => Branch C s₀.view x n ∧
      isGenesis C x = false ∧ (x = h ∨ ∃ d j, Descent s₀.view isValidated h d j ∧
        isValidated d = false ∧ d.header = x)) (fun n x hx => ?_) ⟨hn, hng, .inl rfl⟩ hbound
  rcases hx with ⟨hbranch, hx, hpath⟩
  refine Within.ite (fun hg => ?_) fun _ => ?_
  · rw [hx] at hg
    cases hg
  rcases hbranch.stored hx with ⟨d, m, hd, hm, hbranch'⟩
  refine Within.bind_eq (within_getDiskBlockHeader_stored hd) ?_
  have hdesc : ∃ j, Descent s₀.view isValidated h d j := by
    rcases hpath with rfl | ⟨e, j, hdesc, hpass, rfl⟩
    · exact ⟨1, .parent hd⟩
    · exact ⟨j + 1, .next hdesc hpass hd⟩
  rcases hdesc with ⟨j, hdesc⟩
  have hgoon : isValidated d = false → isGenesis C d.header = false := by
    intro hpass
    refine t.notGenesis hd ?_
    rintro rfl
    cases hpass
  cases d with
  | fullyValid _ _ => exact Within.pure ⟨_, j, hdesc, rfl, rfl⟩
  | assumedValid _ _ => exact Within.pure ⟨_, j, hdesc, rfl, rfl⟩
  | orphan _ => exact Within.fail (hE _ _ hd rfl _)
  | invalidChain _ => exact Within.fail (hE _ _ hd rfl _)
  | headersOnly _ _ =>
    exact Within.pure ⟨m, hm, hbranch', hgoon rfl, .inr ⟨_, j, hdesc, rfl, rfl⟩⟩
  | inFork _ _ =>
    exact Within.pure ⟨m, hm, hbranch', hgoon rfl, .inr ⟨_, j, hdesc, rfl, rfl⟩⟩

theorem within_getBranchWork (h : BlockHeader) :
    Within (Quiet k s₀) Proper (getBranchWork h : ChainM C _) fun _ => True := by
  refine Within.bind (within_getBlockHeight _) fun _ _ => ?_
  refine Within.bind (within_check fun _ _ => trivial) fun height _ => ?_
  refine Within.foldlM (fun total epoch _ => ?_) _ trivial
  have hepoch : Within (Quiet k s₀) Proper (epochWork height (2016 * epoch) : ChainM C _)
      fun _ => True := by
    refine Within.bind (within_getBlockHash _) fun hash _ => ?_
    exact Within.bind (within_getBlockHeader hash) fun _ _ => within_check fun _ _ => trivial
  exact Within.bind hepoch fun _ _ => Within.pure trivial

theorem within_getForkWork {fp : BlockHeader} (hn : Above s₀.view fp h n)
    (hbound : n < walkRounds s₀) :
    Within (Quiet k s₀) Proper (getForkWork h (C.blockHash fp) : ChainM C _) fun _ => True := by
  have hwork : Within (Quiet k s₀) Proper (getWork (C.blockHash fp) : ChainM C _)
      fun _ => True :=
    Within.bind (within_getBlockHeader _) fun header _ => within_getBranchWork header
  refine Within.bind hwork fun work _ => ?_
  refine within_walk (P := fun n (p : BlockHeader × Nat) => Above s₀.view fp p.1 n)
    (fun n p hp => ?_) hn hbound
  refine Within.ite (fun hne => ?_) fun _ => Within.pure trivial
  refine Within.bind (within_getDiskBlockHeader _) fun d hd => Within.pure ?_
  generalize p.1 = x at hp hne hd
  cases hp with
  | self => exact absurd rfl hne
  | @child _ d' m hd' habove =>
    rw [hd] at hd'
    cases hd'
    exact ⟨m, Nat.lt_succ_self m, habove⟩

theorem within_reorgAcc (hash : BlockHash) :
    Within (Quiet k s₀) Proper (reorgAcc hash : ChainM C _) fun _ => True := by
  refine Within.bind (within_getBlockHeight hash) fun _ _ => ?_
  refine Within.bind (within_check fun _ _ => trivial) fun height _ => ?_
  refine Within.ite (fun _ => Within.pure trivial) fun _ => ?_
  exact Within.bind (within_getRootsForBlock height) fun _ _ => within_check fun _ _ => trivial

end Loops

end ChainState
end Floresta
