import Mathlib.Algebra.Group.Nat.Defs
import Mathlib.Data.List.Nodup

/-!
# Fallible — loops that stop at the first error

`Except` as the meaning of code that returns early: the inversion lemmas that take a successful
computation apart, and the invariant rules for its loops.  A loop over a list is `List.foldlM`, a
loop over an enumerated list is `List.foldlM` over `List.zipIdx`; the rules give the invariant the
part of the list that has been processed.
-/

namespace Fallible

variable {ε α β σ : Type} {f : α → Except ε β} {I : List α → σ → Prop} {x : Except ε α}
  {xs : List α}

/-! ## Guards -/

/-- Fail with `e` unless `c` holds. -/
def require (c : Prop) [Decidable c] (e : ε) : Except ε Unit :=
  if c then .ok () else .error e

def okOr (o : Option α) (e : ε) : Except ε α :=
  match o with
  | some a => .ok a
  | none => .error e

/-- A value of `w` bits; `none` where the operation that computes it overflows. -/
def fits (w n : Nat) : Option Nat := if n < 2 ^ w then some n else none

theorem fits_eq {w n : Nat} (h : n < 2 ^ w) : fits w n = some n := if_pos h

@[simp] theorem require_eq_ok {c : Prop} [Decidable c] {e : ε} {u : Unit} :
    require c e = .ok u ↔ c := by
  unfold require
  by_cases h : c <;> simp [h]

@[simp] theorem require_eq_error {c : Prop} [Decidable c] {e e' : ε} :
    require c e = .error e' ↔ ¬ c ∧ e = e' := by
  unfold require
  by_cases h : c <;> simp [h]

@[simp] theorem okOr_eq_ok {o : Option α} {e : ε} {a : α} :
    okOr o e = .ok a ↔ o = some a := by
  cases o <;> simp [okOr]

@[simp] theorem okOr_eq_error {o : Option α} {e e' : ε} :
    okOr o e = .error e' ↔ o = none ∧ e = e' := by
  cases o <;> simp [okOr]

/-! ## Sequencing -/

@[simp] theorem pure_eq_ok {a b : α} : (pure a : Except ε α) = .ok b ↔ a = b := by
  change Except.ok a = .ok b ↔ a = b
  simp

theorem mapError_eq_ok {δ : Type} {f : ε → δ} {a : α} :
    x.mapError f = .ok a ↔ x = .ok a := by
  cases x with
  | error e => simp [Except.mapError]
  | ok b => simp [Except.mapError]

@[simp] theorem bind_eq_ok {x : Except ε α} {f : α → Except ε β} {b : β} :
    (x >>= f) = .ok b ↔ ∃ a, x = .ok a ∧ f a = .ok b := by
  cases x with
  | error e =>
    constructor
    · intro h
      cases h
    · rintro ⟨a, ha, -⟩
      cases ha
  | ok a =>
    constructor
    · intro h
      exact ⟨a, rfl, h⟩
    · rintro ⟨a', ha', hf⟩
      cases ha'
      exact hf

@[simp] theorem bind_eq_error {x : Except ε α} {f : α → Except ε β} {e : ε} :
    (x >>= f) = .error e ↔ x = .error e ∨ ∃ a, x = .ok a ∧ f a = .error e := by
  cases x with
  | error e' =>
    constructor
    · intro h
      cases h
      exact .inl rfl
    · rintro (h | ⟨a, ha, -⟩)
      · cases h
        rfl
      · cases ha
  | ok a =>
    constructor
    · intro h
      exact .inr ⟨a, rfl, h⟩
    · rintro (h | ⟨a', ha', hf⟩)
      · cases h
      · cases ha'
        exact hf

/-! ## Loops -/

/-- Invariant rule for a loop that succeeded, and counts its elements from `k`.  `I done s` speaks of
the elements already processed; the step may use where the current element stands in the list. -/
theorem foldlM_zipIdx_inv {f : σ → α × Nat → Except ε σ} (k : Nat)
    (xs : List α)
    (hstep : ∀ (done : List α) (x : α) (rest : List α) (s s' : σ), xs = done ++ x :: rest →
      I done s → f s (x, k + done.length) = .ok s' → I (done ++ [x]) s')
    {s s' : σ} (h0 : I [] s) (h : (xs.zipIdx k).foldlM f s = .ok s') : I xs s' := by
  have key : ∀ (rest done : List α) (s s' : σ), xs = done ++ rest → I done s →
      (rest.zipIdx (k + done.length)).foldlM f s = .ok s' → I xs s' := by
    intro rest
    induction rest with
    | nil =>
      intro done s s' hxs hI h
      rw [List.zipIdx_nil, List.foldlM_nil, pure_eq_ok] at h
      subst h
      simpa [hxs] using hI
    | cons x rest ih =>
      intro done s s' hxs hI h
      rw [List.zipIdx_cons, List.foldlM_cons, bind_eq_ok] at h
      rcases h with ⟨t, hx, hrest⟩
      refine ih (done ++ [x]) t s' (by simp [hxs]) (hstep done x rest s t hxs hI hx) ?_
      simpa [Nat.add_assoc] using hrest
  exact key xs [] s s' rfl h0 h

theorem forall_mem_snoc {p : α → Prop} {a : α} (h : ∀ x ∈ xs, p x) (ha : p a) :
    ∀ x ∈ xs ++ [a], p x :=
  List.forall_mem_append.mpr ⟨h, List.forall_mem_singleton.mpr ha⟩

theorem nodup_snoc {a : α} (h : xs.Nodup) (ha : a ∉ xs) : (xs ++ [a]).Nodup :=
  List.nodup_append_comm.mp (List.nodup_cons.mpr ⟨ha, h⟩)

/-- The invariant rule for a loop that does not count. -/
theorem foldlM_inv {f : σ → α → Except ε σ} (xs : List α)
    (hstep : ∀ (done : List α) (x : α) (rest : List α) (s s' : σ), xs = done ++ x :: rest →
      I done s → f s x = .ok s' → I (done ++ [x]) s')
    {s s' : σ} (h0 : I [] s) (h : xs.foldlM f s = .ok s') : I xs s' := by
  refine foldlM_zipIdx_inv (f := fun s p => f s p.1) 0 xs hstep h0 ?_
  rwa [← List.foldlM_map, List.zipIdx_map_fst]

/-- The invariant rule for a loop that cannot fail. -/
theorem foldl_zipIdx_inv {f : σ → α × Nat → σ} (xs : List α)
    (hstep : ∀ (done : List α) (x : α) (s : σ), I done s →
      I (done ++ [x]) (f s (x, done.length)))
    {s : σ} (h0 : I [] s) : I xs (xs.zipIdx.foldl f s) := by
  refine foldlM_zipIdx_inv (ε := Empty) 0 xs ?_ h0 List.foldlM_pure
  rintro done x _ s _ - hI ⟨⟩
  rw [Nat.zero_add]
  exact hstep done x s hI

theorem foldlM_require {p : α → Prop} [DecidablePred p] {e : ε} (xs : List α) :
    xs.foldlM (fun _ x => require (p x) e) () = .ok () ↔ ∀ x ∈ xs, p x := by
  induction xs with
  | nil => simp
  | cons x xs ih =>
    rw [List.foldlM_cons, bind_eq_ok, List.forall_mem_cons, ← ih]
    constructor
    · rintro ⟨u, hx, hrest⟩
      exact ⟨require_eq_ok.mp hx, hrest⟩
    · rintro ⟨hx, hrest⟩
      exact ⟨(), require_eq_ok.mpr hx, hrest⟩

theorem mapM_eq_ok {g : α → β} (xs : List α)
    (h : ∀ x ∈ xs, f x = .ok (g x)) : xs.mapM f = .ok (xs.map g) := by
  induction xs with
  | nil => rfl
  | cons x xs ih =>
    rw [List.mapM_cons, h x List.mem_cons_self,
      ih fun y hy => h y (List.mem_cons_of_mem _ hy)]
    rfl

theorem mapM_eq_ok_iff {ys : List β} :
    xs.mapM f = .ok ys ↔ List.Forall₂ (fun x y => f x = .ok y) xs ys := by
  induction xs generalizing ys with
  | nil =>
    rw [List.mapM_nil, pure_eq_ok, List.forall₂_nil_left_iff]
    exact eq_comm
  | cons x xs ih =>
    rw [List.mapM_cons, bind_eq_ok]
    simp only [bind_eq_ok, pure_eq_ok, ih]
    constructor
    · rintro ⟨y, hy, ys', hys, rfl⟩
      exact List.Forall₂.cons hy hys
    · intro h
      cases h with
      | cons hy hys => exact ⟨_, hy, _, hys, rfl⟩

theorem mapM_isOk (h : ∀ x ∈ xs, ∃ y, f x = .ok y) :
    ∃ ys, xs.mapM f = .ok ys := by
  induction xs with
  | nil => exact ⟨[], rfl⟩
  | cons x xs ih =>
    rcases h x List.mem_cons_self with ⟨y, hy⟩
    rcases ih fun x' hx' => h x' (List.mem_cons_of_mem _ hx') with ⟨ys, hys⟩
    refine ⟨y :: ys, mapM_eq_ok_iff.mpr (List.Forall₂.cons hy (mapM_eq_ok_iff.mp hys))⟩

theorem exists_of_forall₂ {R : α → β → Prop} {ys : List β} {x : α} (h : List.Forall₂ R xs ys)
    (hx : x ∈ xs) : ∃ y ∈ ys, R x y := by
  induction h with
  | nil => exact absurd hx List.not_mem_nil
  | cons hy hys ih =>
    rcases List.mem_cons.mp hx with rfl | hx
    · exact ⟨_, List.mem_cons_self, hy⟩
    · rcases ih hx with ⟨y, hy', hR⟩
      exact ⟨y, List.mem_cons_of_mem _ hy', hR⟩

theorem mem_of_mapM_eq_ok {ys : List β} {y : β}
    (h : xs.mapM f = .ok ys) (hy : y ∈ ys) : ∃ x ∈ xs, f x = .ok y :=
  exists_of_forall₂ (mapM_eq_ok_iff.mp h).flip hy

theorem exists_of_mapM_eq_ok {ys : List β} {x : α}
    (h : xs.mapM f = .ok ys) (hx : x ∈ xs) : ∃ y ∈ ys, f x = .ok y :=
  exists_of_forall₂ (mapM_eq_ok_iff.mp h) hx

theorem foldlM_filter {f : α → Except ε Bool} {p : α → Bool} (xs : List α)
    (h : ∀ x ∈ xs, f x = .ok (p x)) (acc : List α) :
    xs.foldlM (fun acc x => do
      if ← f x then pure (acc ++ [x]) else pure acc) acc = .ok (acc ++ xs.filter p) := by
  induction xs generalizing acc with
  | nil => exact congrArg Except.ok (List.append_nil acc).symm
  | cons x xs ih =>
    have hrest := ih fun y hy => h y (List.mem_cons_of_mem _ hy)
    rw [List.foldlM_cons, h x List.mem_cons_self, List.filter_cons]
    cases p x with
    | true => exact (hrest (acc ++ [x])).trans (by simp)
    | false => exact (hrest acc).trans (by simp)

/-! ## Kinds of errors -/

/-- Every error of the computation is of the given kind. -/
def Raises (E : ε → Prop) (x : Except ε α) : Prop := ∀ e, x = .error e → E e

namespace Raises

variable {E : ε → Prop}

theorem ok {a : α} : Raises E (.ok a) := by
  intro e h
  cases h

theorem error {e : ε} (h : E e) : Raises E (.error e : Except ε α) := by
  intro e' heq
  cases heq
  exact h

theorem bind (hx : Raises E x)
    (hf : ∀ a, x = .ok a → Raises E (f a)) : Raises E (x >>= f) := by
  intro e h
  rcases bind_eq_error.mp h with h | ⟨a, ha, h⟩
  · exact hx e h
  · exact hf a ha e h

theorem require {c : Prop} [Decidable c] {e : ε} (h : ¬ c → E e) : Raises E (require c e) := by
  intro e' heq
  rcases require_eq_error.mp heq with ⟨hc, rfl⟩
  exact h hc

theorem okOr {o : Option α} {e : ε} (h : o = none → E e) : Raises E (okOr o e) := by
  intro e' heq
  rcases okOr_eq_error.mp heq with ⟨ho, rfl⟩
  exact h ho

theorem mapError {δ : Type} {D : δ → Prop} {f : ε → δ}
    (h : Raises (fun e => D (f e)) x) : Raises D (x.mapError f) := by
  cases x with
  | ok a => exact ok
  | error e => exact error (h e rfl)

theorem foldlM {f : σ → α → Except ε σ} (hf : ∀ s x, Raises E (f s x)) (xs : List α) (s : σ) :
    Raises E (xs.foldlM f s) := by
  induction xs generalizing s with
  | nil => exact ok
  | cons x xs ih => exact bind (hf s x) fun s' _ => ih s'

end Raises

/-! ## Computations that succeed -/

theorem exists_of_isOk (h : x.isOk = true) : ∃ a, x = .ok a := by
  cases x with
  | error e => cases h
  | ok a => exact ⟨a, rfl⟩

theorem exists_of_any {p : α → Bool} (h : x.toOption.any p = true) : ∃ a, x = .ok a ∧ p a = true := by
  cases x with
  | error e => cases h
  | ok a => exact ⟨a, rfl, h⟩

/-- The computation succeeds, with a value that satisfies `P`. -/
def Ensures (x : Except ε α) (P : α → Prop) : Prop := ∃ a, x = .ok a ∧ P a

namespace Ensures

variable {P Q : α → Prop}

theorem ok {a : α} (h : P a) : Ensures (.ok a : Except ε α) P := ⟨a, rfl, h⟩

theorem mono (h : Ensures x P) (hPQ : ∀ a, P a → Q a) : Ensures x Q := by
  rcases h with ⟨a, ha, hP⟩
  exact ⟨a, ha, hPQ a hP⟩

theorem bind {R : β → Prop} (hx : Ensures x P)
    (hf : ∀ a, P a → Ensures (f a) R) : Ensures (x >>= f) R := by
  rcases hx with ⟨a, rfl, hP⟩
  exact hf a hP

theorem of_ok {a : α} (h : Ensures x P) (ha : x = .ok a) : P a := by
  rcases h with ⟨b, hb, hP⟩
  cases hb.symm.trans ha
  exact hP

/-- A loop whose rounds all succeed; the invariant speaks of the part already processed. -/
theorem foldlM {f : σ → α → Except ε σ} (xs : List α)
    (hstep : ∀ (done : List α) (x : α) (rest : List α) (s : σ), xs = done ++ x :: rest →
      I done s → Ensures (f s x) (I (done ++ [x])))
    {s : σ} (h0 : I [] s) : Ensures (xs.foldlM f s) (I xs) := by
  have key : ∀ (rest done : List α) (s : σ), xs = done ++ rest → I done s →
      Ensures (rest.foldlM f s) (I xs) := by
    intro rest
    induction rest with
    | nil =>
      intro done s hxs hI
      exact ok (by simpa [hxs] using hI)
    | cons x rest ih =>
      intro done s hxs hI
      rw [List.foldlM_cons]
      refine bind (hstep done x rest s hxs hI) ?_
      intro t ht
      exact ih (done ++ [x]) t (by simp [hxs]) ht
  exact key xs [] s rfl h0

end Ensures

end Fallible
