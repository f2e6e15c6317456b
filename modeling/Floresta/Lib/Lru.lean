import Mathlib.Logic.Function.Basic

/-!
# Lru — a bounded cache

The entries stand from the most to the least recently used one; an insertion into a full cache drops
the last.  Seen from outside, a cache is a map that forgets: what it holds is part of the map it was
filled from.
-/

structure Lru (K V : Type) where
  capacity : Nat
  entries : List (K × V)

namespace Lru

variable {K V : Type} [DecidableEq K]

def empty (capacity : Nat) : Lru K V := ⟨capacity, []⟩

def find (c : Lru K V) (k : K) : Option V :=
  (c.entries.find? fun e => e.1 = k).map Prod.snd

/-- A hit moves the entry to the front. -/
def get (c : Lru K V) (k : K) : Option V × Lru K V :=
  match c.find k with
  | none => (none, c)
  | some v => (some v, { c with entries := (k, v) :: c.entries.filter fun e => e.1 ≠ k })

def put (c : Lru K V) (k : K) (v : V) : Lru K V :=
  { c with entries := ((k, v) :: c.entries.filter fun e => e.1 ≠ k).take c.capacity }

/-- Every entry of the cache is an entry of the map. -/
def Agrees (c : Lru K V) (m : K → Option V) : Prop :=
  ∀ k v, c.find k = some v → m k = some v

theorem find_take {entries : List (K × V)} {n : Nat} {k : K} {e : K × V}
    (h : (entries.take n).find? (fun e => e.1 = k) = some e) :
    entries.find? (fun e => e.1 = k) = some e := by
  have hsplit := List.take_append_drop n entries
  rw [← hsplit, List.find?_append, h, Option.some_or]

theorem find_front (k : K) (v : V) (entries : List (K × V)) (k' : K) :
    (((k, v) :: entries.filter fun e => e.1 ≠ k).find? fun e => e.1 = k') =
      if k' = k then some (k, v) else entries.find? fun e => e.1 = k' := by
  by_cases hk : k' = k
  · subst hk
    simp
  · have hne : ¬ k = k' := fun h => hk h.symm
    rw [List.find?_cons_of_neg (by simpa using hne), if_neg hk, List.find?_filter]
    apply congrArg (fun p => entries.find? p)
    funext e
    by_cases he : e.1 = k'
    · simp [he, hk]
    · simp [he]

theorem agrees_empty (capacity : Nat) (m : K → Option V) :
    (empty capacity : Lru K V).Agrees m := by
  intro k v h
  simp [empty, find] at h

theorem Agrees.get_fst {c : Lru K V} {m : K → Option V} (h : c.Agrees m) {k : K} {v : V}
    (hget : (c.get k).1 = some v) : m k = some v := by
  unfold get at hget
  cases hfind : c.find k with
  | none => simp [hfind] at hget
  | some w =>
    have hw : w = v := by simpa [hfind] using hget
    exact hw ▸ h k w hfind

theorem Agrees.get_snd {c : Lru K V} {m : K → Option V} (h : c.Agrees m) (k : K) :
    (c.get k).2.Agrees m := by
  unfold get
  cases hfind : c.find k with
  | none => exact h
  | some w =>
    intro k' v' hk'
    simp only [find] at hk'
    rw [find_front] at hk'
    by_cases hkk : k' = k
    · subst hkk
      simp only [if_true, Option.map_some, Option.some.injEq] at hk'
      exact hk' ▸ h k' w hfind
    · rw [if_neg hkk] at hk'
      exact h k' v' hk'

theorem Agrees.put {c : Lru K V} {m : K → Option V} (h : c.Agrees m) (k : K) (v : V) :
    (c.put k v).Agrees (Function.update m k (some v)) := by
  intro k' v' hk'
  simp only [find, Lru.put] at hk'
  rcases Option.map_eq_some_iff.mp hk' with ⟨e, hfind, rfl⟩
  have hall := find_take hfind
  rw [find_front] at hall
  by_cases hkk : k' = k
  · subst hkk
    rw [if_pos rfl, Option.some.injEq] at hall
    rw [Function.update_self, ← hall]
  · rw [if_neg hkk] at hall
    rw [Function.update_of_ne hkk]
    exact h k' e.2 (by rw [find, hall, Option.map_some])

end Lru
