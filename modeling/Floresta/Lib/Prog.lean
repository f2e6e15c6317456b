import Mathlib.Data.List.Forall2

/-!
# Prog — programs that keep their state when they fail

A program takes a state and returns a result, or an error, with the state it leaves behind: what was
written before an error stays written.  `wp m Q s` says that `m`, started in `s`, ends in a result
and a state that satisfy `Q`.
-/

/-- A stateful program over `σ` that returns an `α` or fails with an `ε`. -/
def Prog (σ ε α : Type) : Type := σ → Except ε α × σ

namespace Prog

variable {σ τ ε δ α β : Type} {m : Prog σ ε α} {f : α → Prog σ ε β} {γ : Type}

instance : Monad (Prog σ ε) where
  pure a := fun s => (.ok a, s)
  bind m f := fun s =>
    match m s with
    | (.ok a, s') => f a s'
    | (.error e, s') => (.error e, s')

def fail (e : ε) : Prog σ ε α := fun s => (.error e, s)

def read (f : σ → α) : Prog σ ε α := fun s => (.ok (f s), s)

def modify (f : σ → σ) : Prog σ ε Unit := fun s => (.ok (), f s)

def lift (x : Except ε α) : Prog σ ε α := fun s => (x, s)

/-- Runs a program and hands its error to the caller instead of failing. -/
def attempt (m : Prog σ ε α) : Prog σ ε (Except ε α) := fun s => (.ok (m s).1, (m s).2)

/-- Runs a program on a component of the state. -/
def zoom (get : τ → σ) (set : σ → τ → τ) (err : ε → δ) (m : Prog σ ε α) : Prog τ δ α := fun t =>
  ((m (get t)).1.mapError err, set (m (get t)).2 t)

/-- Repeats the body until it returns; running out of rounds is the failure `diverged`. -/
def loop (diverged : ε) (body : α → Prog σ ε (α ⊕ β)) : Nat → α → Prog σ ε β
  | 0, _ => fail diverged
  | n + 1, a => do
      match ← body a with
      | .inl a' => loop diverged body n a'
      | .inr b => pure b

theorem bind_apply (m : Prog σ ε α) (f : α → Prog σ ε β) (s : σ) :
    (m >>= f) s = match m s with
      | (.ok a, s') => f a s'
      | (.error e, s') => (.error e, s') := rfl

theorem bind_eq_ok_iff {s s' : σ} {b : β} :
    (m >>= f) s = (.ok b, s') ↔ ∃ a t, m s = (.ok a, t) ∧ f a t = (.ok b, s') := by
  rw [bind_apply]
  rcases m s with ⟨e | a, t⟩
  · simp
  · constructor
    · intro h
      exact ⟨a, t, rfl, h⟩
    · rintro ⟨a', t', heq, h⟩
      cases heq
      exact h

theorem forM_modify (f : γ → σ → σ) (l : List γ) (s : σ) :
    (l.forM fun c => modify (f c) : Prog σ ε Unit) s = (.ok (), l.foldl (fun s c => f c s) s) := by
  induction l generalizing s with
  | nil => rfl
  | cons c l ih => exact ih (f c s)

theorem bind_assoc (m : Prog σ ε α) (f : α → Prog σ ε β) (g : β → Prog σ ε γ) :
    m >>= f >>= g = m >>= fun a => f a >>= g := by
  funext s
  simp only [bind_apply]
  rcases m s with ⟨e | a, s'⟩ <;> rfl

instance : LawfulMonad (Prog σ ε) :=
  LawfulMonad.mk' _
    (fun m => by
      funext s
      change (match m s with
        | (.ok a, s') => (.ok a, s')
        | (.error e, s') => (.error e, s')) = m s
      rcases m s with ⟨e | a, s'⟩ <;> rfl)
    (fun _ _ => rfl) bind_assoc

theorem zoom_bind {get : τ → σ} {set : σ → τ → τ} {err : ε → δ}
    (hget : ∀ s t, get (set s t) = s) (hset : ∀ s s' t, set s' (set s t) = set s' t)
    (m : Prog σ ε α) (f : α → Prog σ ε β) :
    (zoom get set err m >>= fun a => zoom get set err (f a)) = zoom get set err (m >>= f) := by
  funext t
  rw [bind_apply]
  unfold zoom
  rw [bind_apply]
  rcases m (get t) with ⟨e | a, s'⟩
  · rfl
  · simp only [Except.mapError, hget, hset]

/-! ## Weakest preconditions -/

def wp (m : Prog σ ε α) (Q : Except ε α → σ → Prop) (s : σ) : Prop :=
  Q (m s).1 (m s).2

section Rules

variable {Q R : Except ε α → σ → Prop} {s : σ}

theorem wp_mono (h : wp m Q s) (hQR : ∀ r s', Q r s' → R r s') : wp m R s :=
  hQR _ _ h

theorem wp_and (h : wp m Q s) (h' : wp m R s) :
    wp m (fun r s' => Q r s' ∧ R r s') s :=
  ⟨h, h'⟩

@[simp] theorem wp_pure {a : α} : wp (pure a) Q s ↔ Q (.ok a) s := Iff.rfl

@[simp] theorem wp_read {f : σ → α} : wp (read f) Q s ↔ Q (.ok (f s)) s := Iff.rfl

@[simp] theorem wp_lift {x : Except ε α} : wp (lift x) Q s ↔ Q x s := Iff.rfl

@[simp] theorem wp_modify {f : σ → σ} {Q : Except ε Unit → σ → Prop} :
    wp (modify f) Q s ↔ Q (.ok ()) (f s) := Iff.rfl

@[simp] theorem wp_attempt {m : Prog σ ε α} {Q : Except ε (Except ε α) → σ → Prop} :
    wp (attempt m) Q s ↔ wp m (fun r s' => Q (.ok r) s') s := Iff.rfl

@[simp] theorem wp_zoom {get : τ → σ} {set : σ → τ → τ} {err : ε → δ} {m : Prog σ ε α}
    {Q : Except δ α → τ → Prop} {t : τ} :
    wp (zoom get set err m) Q t ↔
      wp m (fun r s' => Q (r.mapError err) (set s' t)) (get t) := Iff.rfl

/-- The continuation of a program inside a `bind`: it runs on a result and is skipped on an
error. -/
def andThen (f : α → Prog σ ε β) (Q : Except ε β → σ → Prop) : Except ε α → σ → Prop
  | .ok a, s => wp (f a) Q s
  | .error e, s => Q (.error e) s

@[simp] theorem andThen_ok {f : α → Prog σ ε β} {Q : Except ε β → σ → Prop} {a : α} :
    andThen f Q (.ok a) s ↔ wp (f a) Q s := Iff.rfl

@[simp] theorem wp_bind {m : Prog σ ε α} {f : α → Prog σ ε β} {Q : Except ε β → σ → Prop} :
    wp (m >>= f) Q s ↔ wp m (andThen f Q) s := by
  unfold wp
  rw [bind_apply]
  rcases m s with ⟨_ | a, s'⟩
  · exact Iff.rfl
  · exact Iff.rfl

theorem wp_read_bind {g : σ → α} {f : α → Prog σ ε β} {Q : Except ε β → σ → Prop} :
    wp (read g >>= f) Q s ↔ wp (f (g s)) Q s := wp_bind

theorem wp_modify_bind {g : σ → σ} {f : Unit → Prog σ ε β} {Q : Except ε β → σ → Prop} :
    wp (modify g >>= f) Q s ↔ wp (f ()) Q (g s) := wp_bind

/-- What a round of a loop has to establish: the invariant at a smaller variant, or the
postcondition. -/
def roundPost (Inv : Nat → α → σ → Prop) (Q : Except ε β → σ → Prop) (n : Nat) :
    Except ε (α ⊕ β) → σ → Prop
  | .ok (.inl a'), s' => ∃ n' < n, Inv n' a' s'
  | .ok (.inr b), s' => Q (.ok b) s'
  | .error e, s' => Q (.error e) s'

/-- A loop whose rounds keep an invariant at smaller and smaller variants ends, if it has more
rounds than its first variant says. -/
theorem wp_loop {diverged : ε} {body : α → Prog σ ε (α ⊕ β)} {Q : Except ε β → σ → Prop}
    (Inv : Nat → α → σ → Prop)
    (hstep : ∀ n a s, Inv n a s → wp (body a) (roundPost Inv Q n) s)
    {fuel n : Nat} {a : α} {s : σ} (hinv : Inv n a s) (hfuel : n < fuel) :
    wp (loop diverged body fuel a) Q s := by
  induction fuel generalizing n a s with
  | zero => exact absurd hfuel (Nat.not_lt_zero _)
  | succ fuel ih =>
    unfold loop
    rw [wp_bind]
    refine wp_mono (hstep n a s hinv) ?_
    rintro (e | a' | b) s' hround
    · exact hround
    · rcases hround with ⟨n', hn', hinv'⟩
      exact ih hinv' (Nat.lt_of_lt_of_le hn' (Nat.le_of_lt_succ hfuel))
    · exact hround

/-- A loop over a range of numbers, up to the first round that fails. -/
theorem wp_forM_range {f : Nat → Prog σ ε Unit} (Inv : Nat → σ → Prop) {n : Nat}
    {Q : Except ε Unit → σ → Prop}
    (hstep : ∀ i < n, ∀ s, Inv i s → wp (f i) (fun r s' =>
      (r = .ok () ∧ Inv (i + 1) s') ∨ ∃ e, r = .error e ∧ Q (.error e) s') s)
    (hdone : ∀ s, Inv n s → Q (.ok ()) s) {s : σ} (hinv : Inv 0 s) :
    wp ((List.range n).forM f) Q s := by
  -- the rounds that are left, from the first of them on
  have hfrom : ∀ m i s, i + m = n → Inv i s → wp ((List.range' i m).forM f) Q s := by
    intro m
    induction m with
    | zero =>
      intro i s hi hs
      exact hdone s ((show i = n by omega) ▸ hs)
    | succ m ih =>
      intro i s hi hs
      rw [List.range'_succ]
      refine wp_bind.mpr ?_
      refine wp_mono (hstep i (by omega) s hs) ?_
      rintro r s' (⟨rfl, hs'⟩ | ⟨e, rfl, hs'⟩)
      · exact ih (i + 1) s' (by omega) hs'
      · exact hs'
  rw [List.range_eq_range']
  exact hfrom n 0 s (Nat.zero_add n) hinv

end Rules

/-! ## Programs that stay within a set of states -/

/-- A result that satisfies `P`, or an error that satisfies `E`. -/
def Outcome (E : ε → Prop) (P : α → Prop) : Except ε α → Prop
  | .ok a => P a
  | .error e => E e

/-- From every state of `S`, the program ends in a state of `S`, with an outcome in `E` and `P`. -/
def Within (S : σ → Prop) (E : ε → Prop) (m : Prog σ ε α) (P : α → Prop) : Prop :=
  ∀ s, S s → wp m (fun r s' => S s' ∧ Outcome E P r) s

namespace Within

variable {S : σ → Prop} {E : ε → Prop} {P : α → Prop} {R : β → Prop}

theorem pure {a : α} (h : P a) : Within S E (pure a) P := fun _ hs => ⟨hs, h⟩

theorem fail {e : ε} (h : E e) : Within S E (fail e : Prog σ ε α) P := fun _ hs => ⟨hs, h⟩

theorem read {f : σ → α} (h : ∀ s, S s → P (f s)) : Within S E (read f) P :=
  fun s hs => ⟨hs, h s hs⟩

theorem lift {x : Except ε α} (h : Outcome E P x) : Within S E (lift x) P := fun _ hs => ⟨hs, h⟩

theorem mono {P' : α → Prop} (hm : Within S E m P) (h : ∀ a, P a → P' a) :
    Within S E m P' := by
  intro s hs
  refine wp_mono (hm s hs) ?_
  rintro (e | a) s' ⟨hs', hout⟩
  · exact ⟨hs', hout⟩
  · exact ⟨hs', h a hout⟩

theorem imp {E' : ε → Prop} (hm : Within S E m P) (h : ∀ e, E e → E' e) :
    Within S E' m P := by
  intro s hs
  refine wp_mono (hm s hs) ?_
  rintro (e | a) s' ⟨hs', hout⟩
  · exact ⟨hs', h e hout⟩
  · exact ⟨hs', hout⟩

theorem weaken (hm : Within S (fun _ => False) m P) : Within S E m P :=
  hm.imp fun _ h => h.elim

theorem exists_ok (hm : Within S (fun _ => False) m P) {s : σ} (hs : S s) :
    ∃ a, (m s).1 = .ok a ∧ P a := by
  have hout := (hm s hs).2
  cases hresult : (m s).1 with
  | error e =>
    rw [hresult] at hout
    exact hout.elim
  | ok a =>
    rw [hresult] at hout
    exact ⟨a, rfl, hout⟩

theorem eq_ok {a : α} (hm : Within S (fun _ => False) m (· = a)) {s : σ}
    (hs : S s) : (m s).1 = .ok a := by
  rcases hm.exists_ok hs with ⟨b, hb, rfl⟩
  exact hb

theorem and {E' : ε → Prop} {P' : α → Prop} (hm : Within S E m P)
    (hm' : Within S E' m P') : Within S (fun e => E e ∧ E' e) m fun a => P a ∧ P' a := by
  intro s hs
  refine wp_mono (wp_and (hm s hs) (hm' s hs)) ?_
  rintro (e | a) s' ⟨⟨hs', hout⟩, -, hout'⟩
  · exact ⟨hs', hout, hout'⟩
  · exact ⟨hs', hout, hout'⟩

theorem bind (hm : Within S E m P)
    (hf : ∀ a, P a → Within S E (f a) R) : Within S E (m >>= f) R := by
  intro s hs
  rw [wp_bind]
  refine wp_mono (hm s hs) ?_
  rintro (e | a) s' ⟨hs', hout⟩
  · exact ⟨hs', hout⟩
  · exact hf a hout s' hs'

theorem bind_eq {a : α} (hm : Within S E m (· = a)) (hf : Within S E (f a) R) :
    Within S E (m >>= f) R := by
  refine hm.bind ?_
  rintro _ rfl
  exact hf

theorem yields {a : α} {Q : Except ε α → σ → Prop} {s : σ}
    (hm : Within S (fun _ => False) m (· = a)) (hs : S s) (hQ : ∀ s', S s' → Q (.ok a) s') :
    wp m Q s := by
  refine wp_mono (hm s hs) ?_
  rintro (e | a') s' ⟨hs', hout⟩
  · exact hout.elim
  · cases hout
    exact hQ s' hs'

theorem before {Q : Except ε β → σ → Prop} {s : σ}
    (hm : Within S E m P) (hs : S s) (herror : ∀ e s', E e → S s' → Q (.error e) s')
    (hf : ∀ a s', P a → S s' → wp (f a) Q s') : wp (m >>= f) Q s := by
  rw [wp_bind]
  refine wp_mono (hm s hs) ?_
  rintro (e | a) s' ⟨hs', hout⟩
  · exact herror e s' hout hs'
  · exact hf a s' hout hs'

theorem any (m : Prog σ ε α) : Within (fun _ => True) (fun _ => True) m fun _ => True := by
  intro s _
  unfold wp
  rcases m s with ⟨e | a, s'⟩ <;> exact ⟨trivial, trivial⟩

/-- A program on a component stays within the states whose component it stays within. -/
theorem zoom {τ δ : Type} {get : τ → σ} {set : σ → τ → τ} {err : ε → δ} {T : τ → Prop}
    {E' : δ → Prop} (hm : Within S E m P) (hget : ∀ t, T t → S (get t))
    (hset : ∀ t s, T t → S s → T (set s t)) (herr : ∀ e, E e → E' (err e)) :
    Within T E' (Prog.zoom get set err m) P := by
  intro t ht
  rw [wp_zoom]
  refine wp_mono (hm (get t) (hget t ht)) ?_
  rintro (e | a) s' ⟨hs', hout⟩
  · exact ⟨hset t s' ht hs', herr e hout⟩
  · exact ⟨hset t s' ht hs', hout⟩

theorem attempt {E' : ε → Prop} (hm : Within S E m P) :
    Within S E' (attempt m) (Outcome E P) := fun s hs => hm s hs

theorem ite {p : Prop} [Decidable p] {m m' : Prog σ ε α} (h : p → Within S E m P)
    (h' : ¬ p → Within S E m' P) : Within S E (if p then m else m') P := by
  split
  · exact h ‹p›
  · exact h' ‹¬ p›

theorem foldlM {f : α → γ → Prog σ ε α} (hf : ∀ a c, P a → Within S E (f a c) P)
    (l : List γ) {a : α} (ha : P a) : Within S E (l.foldlM f a) P := by
  induction l generalizing a with
  | nil => exact pure ha
  | cons c l ih =>
    rw [List.foldlM_cons]
    exact bind (hf a c ha) fun a' ha' => ih ha'

theorem forM {f : γ → Prog σ ε Unit} (l : List γ)
    (hf : ∀ c ∈ l, Within S E (f c) fun _ => True) : Within S E (l.forM f) fun _ => True := by
  induction l with
  | nil => exact pure trivial
  | cons c l ih =>
    exact bind (hf c List.mem_cons_self) fun _ _ =>
      ih fun c' hc' => hf c' (List.mem_cons_of_mem _ hc')

/-- A fold over a range of numbers, with an invariant that counts the rounds. -/
theorem foldlM_range {f : α → Nat → Prog σ ε α} {P : Nat → α → Prop} {n : Nat}
    (hf : ∀ i < n, ∀ a, P i a → Within S E (f a i) (P (i + 1))) {a : α} (ha : P 0 a) :
    Within S E ((List.range n).foldlM f a) (P n) := by
  induction n with
  | zero => exact pure ha
  | succ n ih =>
    rw [List.range_succ, List.foldlM_append]
    refine bind (ih fun i hi => hf i (Nat.lt_succ_of_lt hi)) fun b hb => ?_
    rw [List.foldlM_cons]
    exact bind (hf n (Nat.lt_succ_self n) b hb) fun c hc => pure hc

theorem mapM {f : γ → Prog σ ε β} {R : γ → β → Prop} (l : List γ)
    (hf : ∀ c ∈ l, Within S E (f c) (R c)) : Within S E (l.mapM f) (List.Forall₂ R l) := by
  induction l with
  | nil => exact pure List.Forall₂.nil
  | cons c l ih =>
    rw [List.mapM_cons]
    refine bind (hf c List.mem_cons_self) fun b hb => ?_
    refine bind (ih fun c' hc' => hf c' (List.mem_cons_of_mem _ hc')) fun bs hbs => ?_
    exact pure (List.Forall₂.cons hb hbs)

/-- A loop over values that satisfy `P` at smaller and smaller variants. -/
theorem loop {diverged : ε} {body : α → Prog σ ε (α ⊕ β)} {P : Nat → α → Prop}
    (hbody : ∀ n a, P n a → Within S E (body a) (Sum.elim (fun a' => ∃ n' < n, P n' a') R))
    {fuel n : Nat} {a : α} (ha : P n a) (hfuel : n < fuel) :
    Within S E (loop diverged body fuel a) R := by
  intro s hs
  refine wp_loop (fun n a s => P n a ∧ S s) ?_ ⟨ha, hs⟩ hfuel
  rintro n a s ⟨ha, hs⟩
  refine wp_mono (hbody n a ha s hs) ?_
  rintro (e | a' | b) s' ⟨hs', hout⟩
  · exact ⟨hs', hout⟩
  · rcases hout with ⟨n', hn', ha'⟩
    exact ⟨n', hn', ha', hs'⟩
  · exact ⟨hs', hout⟩

end Within

/-! ## Programs that keep a property of the state -/

/-- From every state of `S` the program ends in a state of `S`, whatever it returns. -/
def Stays (S : σ → Prop) (m : Prog σ ε α) : Prop := ∀ s, S s → S (m s).2

namespace Stays

variable {S : σ → Prop}

theorem pure (a : α) : Stays S (pure a : Prog σ ε α) := fun _ hs => hs

theorem fail (e : ε) : Stays S (fail e : Prog σ ε α) := fun _ hs => hs

theorem read (f : σ → α) : Stays S (read f : Prog σ ε α) := fun _ hs => hs

theorem lift (x : Except ε α) : Stays S (lift x) := fun _ hs => hs

theorem modify {f : σ → σ} (h : ∀ s, S s → S (f s)) : Stays S (modify f : Prog σ ε Unit) := h

theorem bind (hm : Stays S m) (hf : ∀ a, Stays S (f a)) :
    Stays S (m >>= f) := by
  intro s hs
  rw [bind_apply]
  have hmid := hm s hs
  generalize m s = r at hmid ⊢
  rcases r with ⟨e | a, s'⟩
  · exact hmid
  · exact hf a s' hmid

theorem ite {p : Prop} [Decidable p] {m m' : Prog σ ε α} (h : Stays S m) (h' : Stays S m') :
    Stays S (if p then m else m') := by
  split
  · exact h
  · exact h'

theorem foldlM {f : α → γ → Prog σ ε α} (hf : ∀ a c, Stays S (f a c)) (l : List γ)
    (a : α) : Stays S (l.foldlM f a) := by
  induction l generalizing a with
  | nil => exact pure a
  | cons c l ih =>
    rw [List.foldlM_cons]
    exact bind (hf a c) ih

theorem forM {f : γ → Prog σ ε Unit} (l : List γ) (hf : ∀ c, Stays S (f c)) :
    Stays S (l.forM f) := by
  induction l with
  | nil => exact pure ()
  | cons c l ih => exact bind (hf c) fun _ => ih

end Stays

/-! ## Programs with one answer -/

/-- From every state of `S`, the program ends in a state of `S`, and always with the same result. -/
def Uniform (S : σ → Prop) (m : Prog σ ε α) : Prop :=
  ∃ r, ∀ s, S s → wp m (fun r' s' => r' = r ∧ S s') s

namespace Uniform

variable {S : σ → Prop}

theorem pure (a : α) : Uniform S (pure a : Prog σ ε α) := ⟨_, fun _ hs => ⟨rfl, hs⟩⟩

theorem fail (e : ε) : Uniform S (fail e : Prog σ ε α) := ⟨_, fun _ hs => ⟨rfl, hs⟩⟩

theorem lift (x : Except ε α) : Uniform S (lift x) := ⟨_, fun _ hs => ⟨rfl, hs⟩⟩

theorem read {f : σ → α} {a : α} (h : ∀ s, S s → f s = a) : Uniform S (read f : Prog σ ε α) :=
  ⟨.ok a, fun s hs => ⟨congrArg Except.ok (h s hs), hs⟩⟩

theorem of_within {a : α} (h : Within S (fun _ => False) m (· = a)) :
    Uniform S m :=
  ⟨.ok a, fun _ hs => h.yields hs fun _ hs' => ⟨rfl, hs'⟩⟩

theorem bind (hm : Uniform S m) (hf : ∀ a, Uniform S (f a)) :
    Uniform S (m >>= f) := by
  rcases hm with ⟨e | a, hm⟩
  · refine ⟨.error e, fun s hs => wp_bind.mpr (wp_mono (hm s hs) ?_)⟩
    rintro r s' ⟨rfl, hs'⟩
    exact ⟨rfl, hs'⟩
  · rcases hf a with ⟨r, hf⟩
    refine ⟨r, fun s hs => wp_bind.mpr (wp_mono (hm s hs) ?_)⟩
    rintro r' s' ⟨rfl, hs'⟩
    exact hf s' hs'

theorem attempt (hm : Uniform S m) : Uniform S (attempt m) := by
  rcases hm with ⟨r, hm⟩
  refine ⟨.ok r, fun s hs => wp_attempt.mpr (wp_mono (hm s hs) ?_)⟩
  rintro r' s' ⟨rfl, hs'⟩
  exact ⟨rfl, hs'⟩

theorem ite {p : Prop} [Decidable p] {m m' : Prog σ ε α} (h : Uniform S m) (h' : Uniform S m') :
    Uniform S (if p then m else m') := by
  split
  · exact h
  · exact h'

theorem foldlM {f : α → γ → Prog σ ε α} (hf : ∀ a c, Uniform S (f a c)) (l : List γ)
    (a : α) : Uniform S (l.foldlM f a) := by
  induction l generalizing a with
  | nil => exact pure a
  | cons c l ih =>
    rw [List.foldlM_cons]
    exact bind (hf a c) ih

theorem loop (diverged : ε) {body : α → Prog σ ε (α ⊕ β)} (hbody : ∀ a, Uniform S (body a))
    (fuel : Nat) (a : α) : Uniform S (loop diverged body fuel a) := by
  induction fuel generalizing a with
  | zero => exact fail diverged
  | succ fuel ih =>
    refine bind (hbody a) fun round => ?_
    cases round with
    | inl a' => exact ih a'
    | inr b => exact pure b

theorem within (hm : Uniform S m) {s0 : σ} (hs0 : S s0) :
    Within S (fun e => (m s0).1 = .error e) m fun a => (m s0).1 = .ok a := by
  rcases hm with ⟨r, hm⟩
  have hr : (m s0).1 = r := (hm s0 hs0).1
  intro s hs
  refine wp_mono (hm s hs) ?_
  rintro r' s' ⟨rfl, hs'⟩
  cases r' with
  | error e => exact ⟨hs', hr⟩
  | ok a => exact ⟨hs', hr⟩

theorem within_attempt {E : ε → Prop} (hm : Uniform S m) {s0 : σ} (hs0 : S s0) :
    Within S E (Prog.attempt m) (· = (m s0).1) := by
  rcases hm with ⟨r, hm⟩
  have hr : (m s0).1 = r := (hm s0 hs0).1
  intro s hs
  refine wp_attempt.mpr (wp_mono (hm s hs) ?_)
  rintro r' s' ⟨rfl, hs'⟩
  exact ⟨hs', hr.symm⟩

end Uniform

/-- From every state, the program ends with the same given result. -/
def Returns (m : Prog σ ε α) (r : Except ε α) : Prop := ∀ s, (m s).1 = r

namespace Returns

theorem pure (a : α) : Returns (pure a : Prog σ ε α) (.ok a) := fun _ => rfl

theorem fail (e : ε) : Returns (fail e : Prog σ ε α) (.error e) := fun _ => rfl

theorem lift (x : Except ε α) : Returns (lift x : Prog σ ε α) x := fun _ => rfl

theorem bind {a : α} {r : Except ε β}
    (hm : Returns m (.ok a)) (hf : Returns (f a) r) : Returns (m >>= f) r := by
  intro s
  have ha := hm s
  rw [bind_apply]
  generalize m s = run at ha ⊢
  rcases run with ⟨e | b, s'⟩
  · cases ha
  · cases ha
    exact hf s'

theorem bind_error {e : ε} (hm : Returns m (.error e)) :
    Returns (m >>= f) (.error e) := by
  intro s
  have he := hm s
  rw [bind_apply]
  generalize m s = run at he ⊢
  rcases run with ⟨e' | b, s'⟩
  · cases he
    rfl
  · cases he

theorem andThen {r : Except ε α} {g : α → Except ε β}
    (hm : Returns m r) (hf : ∀ a, Returns (f a) (g a)) : Returns (m >>= f) (r >>= g) := by
  cases r with
  | error e => exact bind_error hm
  | ok a => exact bind hm (hf a)

theorem attempt {r : Except ε α} (hm : Returns m r) :
    Returns (attempt m) (.ok r) := fun s => congrArg Except.ok (hm s)

section Loop

variable {diverged : ε} {body : α → Prog σ ε (α ⊕ β)} {fuel : Nat} {a a' : α} {b : β}

theorem loop_next {r : Except ε β} (hbody : Returns (body a) (.ok (.inl a')))
    (h : Returns (loop diverged body fuel a') r) :
    Returns (loop diverged body (fuel + 1) a) r := bind hbody h

theorem loop_done (hbody : Returns (body a) (.ok (.inr b))) :
    Returns (loop diverged body (fuel + 1) a) (.ok b) := bind hbody (pure b)

theorem loop_error {e : ε} (hbody : Returns (body a) (.error e)) :
    Returns (loop diverged body (fuel + 1) a) (.error e) := bind_error hbody

end Loop

end Returns

/-! ## Two programs that do the same -/

/-- In the states of a set, the two programs give the same answer and end in the same state. -/
def Agrees (S : σ → Prop) (m m' : Prog σ ε α) : Prop := ∀ s, S s → m s = m' s

namespace Agrees

variable {S : σ → Prop} {E : ε → Prop}

theorem refl (m : Prog σ ε α) : Agrees S m m := fun _ _ => rfl

theorem within {m' : Prog σ ε α} {P : α → Prop} (h : Agrees S m m') (hw : Within S E m' P) :
    Within S E m P := by
  intro s hs
  unfold wp
  rw [h s hs]
  exact hw s hs

/-- The rest has to agree on what the first program can give, and on nothing else. -/
theorem bind {m' : Prog σ ε α} {f f' : α → Prog σ ε β} {P : α → Prop} (hm : Agrees S m m')
    (hw : Within S E m' P) (hf : ∀ a, P a → Agrees S (f a) (f' a)) :
    Agrees S (m >>= f) (m' >>= f') := by
  intro s hs
  have hrun := hw s hs
  unfold wp at hrun
  rw [bind_apply, bind_apply, hm s hs]
  generalize m' s = run at hrun ⊢
  rcases run with ⟨e | a, s'⟩
  · rfl
  · exact hf a hrun.2 s' hrun.1

theorem ite {p : Prop} [Decidable p] {m m' n n' : Prog σ ε α} (h : p → Agrees S m m')
    (h' : ¬ p → Agrees S n n') : Agrees S (if p then m else n) (if p then m' else n') := by
  split
  · exact h ‹_›
  · exact h' ‹_›

/-- The rounds of the loop agree on what the rounds before can give. -/
theorem loop {diverged : ε} {body body' : α → Prog σ ε (α ⊕ β)} {P : α → Prop}
    (hbody : ∀ a, P a → Agrees S (body a) (body' a))
    (hround : ∀ a, P a → Within S E (body a) (Sum.elim P fun _ => True)) (fuel : Nat) {a : α}
    (ha : P a) : Agrees S (loop diverged body fuel a) (loop diverged body' fuel a) := by
  induction fuel generalizing a with
  | zero => exact refl _
  | succ fuel ih =>
    intro s hs
    have hrun := hround a ha s hs
    unfold wp at hrun
    unfold Prog.loop
    rw [bind_apply, bind_apply, ← hbody a ha s hs]
    generalize body a s = run at hrun ⊢
    rcases run with ⟨e | a' | b, s'⟩
    · rfl
    · exact ih hrun.2 s' hrun.1
    · rfl

end Agrees

end Prog
