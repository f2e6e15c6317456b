import Mathlib.Algebra.Group.Nat.Even
import Mathlib.Data.List.Nodup
import Mathlib.Data.Set.Function

/-!
# PairTree — trees that pair a list level by level

Each level of the tree joins the elements of the one below it in pairs, from the left; an unpaired
last element is joined with itself.  The padding makes the construction ambiguous: a list that
writes out its own padding has the same root.  Such a list has *twins*, two equal elements of a level
that are really there and are joined with each other.

* Without twins, and where joining is injective on the pairs that are joined, the root determines the
  list (`Joins.eq`).
* Distinct elements have no twins on any level (`Joins.nodup`).
* A list that extends one with twins has twins (`Joins.twins_of_initial`).
-/

namespace Floresta.PairTree

variable {α : Type} {level : List α}

/-! ## One level -/

def pairs : List α → List (α × α)
  | [] => []
  | [l] => [(l, l)]
  | l :: r :: rest => (l, r) :: pairs rest

/-- Two equal elements are a pair, and not because of the padding. -/
def Twins : List α → Prop
  | l :: r :: rest => l = r ∨ Twins rest
  | _ => False

theorem pairs_ne_nil (h : level ≠ []) : pairs level ≠ [] := by
  match level, h with
  | [_], _ => exact List.cons_ne_nil _ _
  | _ :: _ :: _, _ => exact List.cons_ne_nil _ _

theorem length_pairs (level : List α) : (pairs level).length = (level.length + 1) / 2 := by
  induction level using pairs.induct with
  | case1 => simp [pairs]
  | case2 l => simp [pairs]
  | case3 l r rest ih =>
    simp only [pairs, List.length_cons, ih]
    omega

theorem eq_of_pairs_eq {xs ys : List α} (hx : ¬ Twins xs) (hy : ¬ Twins ys)
    (h : pairs xs = pairs ys) : xs = ys := by
  induction xs using pairs.induct generalizing ys with
  | case1 =>
    by_contra hne
    exact pairs_ne_nil (Ne.symm hne) h.symm
  | case2 l =>
    match ys, hy, h with
    | [l'], _, h =>
      cases h
      rfl
    | l' :: r' :: rest', hy, h =>
      -- the padding of one list is written out in the other
      have hpair : (l, l) = (l', r') := (List.cons.inj h).1
      cases hpair
      exact absurd (.inl rfl) hy
  | case3 l r rest ih =>
    match ys, hy, h with
    | [l'], _, h =>
      have hpair : (l, r) = (l', l') := (List.cons.inj h).1
      cases hpair
      exact absurd (.inl rfl) hx
    | l' :: r' :: rest', hy, h =>
      rcases List.cons.inj h with ⟨hpair, hrest⟩
      cases hpair
      rw [ih (fun ht => hx (.inr ht)) (fun ht => hy (.inr ht)) hrest]

theorem map_fst_pairs_sublist (level : List α) :
    List.Sublist ((pairs level).map Prod.fst) level := by
  induction level using pairs.induct with
  | case1 => exact List.Sublist.slnil
  | case2 l => exact List.Sublist.refl _
  | case3 l r rest ih => exact (ih.cons r).cons_cons l

theorem not_twins_of_nodup (h : level.Nodup) : ¬ Twins level := by
  induction level using pairs.induct with
  | case1 => exact id
  | case2 l => exact id
  | case3 l r rest ih =>
    rw [List.nodup_cons, List.nodup_cons] at h
    rintro (rfl | htwins)
    · exact h.1 List.mem_cons_self
    · exact ih h.2.2 htwins

theorem nodup_pairs (h : level.Nodup) : (pairs level).Nodup :=
  ((map_fst_pairs_sublist level).nodup h).of_map _

/-! ## A level and one that extends it -/

/-- The last element occurs nowhere else. -/
def LastFresh (level : List α) : Prop := ∀ x ∈ level.getLast?, x ∉ level.dropLast

theorem dropLast_pairs_initial {xs ys : List α} (h : xs.dropLast <+: ys) :
    (pairs xs).dropLast <+: pairs ys := by
  induction xs using pairs.induct generalizing ys with
  | case1 => exact List.nil_prefix
  | case2 l => exact List.nil_prefix
  | case3 l r rest ih =>
    cases rest with
    | nil => exact List.nil_prefix
    | cons x rest =>
      rcases h with ⟨zs, rfl⟩
      have hrest : (pairs (x :: rest)).dropLast <+: pairs ((x :: rest).dropLast ++ zs) :=
        ih (List.prefix_append _ _)
      have hcons := pairs_ne_nil (List.cons_ne_nil x rest)
      rw [pairs, List.dropLast_cons_of_ne_nil hcons]
      exact (List.prefix_cons_inj (l, r)).mpr hrest

theorem pairs_initial {xs ys : List α} (heven : Even xs.length) (h : xs <+: ys) :
    pairs xs <+: pairs ys := by
  induction xs using pairs.induct generalizing ys with
  | case1 => exact List.nil_prefix
  | case2 l => simp at heven
  | case3 l r rest ih =>
    rcases h with ⟨zs, rfl⟩
    have hrest : Even rest.length := by
      simpa [Nat.even_add_one] using heven
    exact (List.prefix_cons_inj (l, r)).mpr (ih hrest (List.prefix_append _ _))

theorem twins_of_initial {xs ys : List α} (h : xs <+: ys) (htwins : Twins xs) : Twins ys := by
  induction xs using pairs.induct generalizing ys with
  | case1 => exact htwins.elim
  | case2 l => exact htwins.elim
  | case3 l r rest ih =>
    rcases h with ⟨zs, rfl⟩
    rcases htwins with hpair | htwins
    · exact .inl hpair
    · exact .inr (ih (List.prefix_append _ _) htwins)

/-- Twins are in the part that both levels have, if the last element occurs nowhere else. -/
theorem twins_of_dropLast_prefix {xs ys : List α} (hfresh : LastFresh xs) (h : xs.dropLast <+: ys)
    (htwins : Twins xs) : Twins ys := by
  induction xs using pairs.induct generalizing ys with
  | case1 => exact htwins.elim
  | case2 l => exact htwins.elim
  | case3 l r rest ih =>
    cases rest with
    | nil =>
      rcases htwins with rfl | htwins
      · exact absurd (List.mem_singleton_self l) (hfresh l rfl)
      · exact htwins.elim
    | cons x rest =>
      rcases h with ⟨zs, rfl⟩
      rcases htwins with hpair | htwins
      · exact .inl hpair
      · refine .inr (ih ?_ (List.prefix_append _ _) htwins)
        intro y hy hmem
        refine hfresh y ?_ (List.mem_cons_of_mem _ (List.mem_cons_of_mem _ hmem))
        rw [List.getLast?_cons_cons, List.getLast?_cons_cons]
        exact hy

theorem snd_mem_dropLast {p : α × α} (h : p ∈ (pairs level).dropLast) :
    p.2 ∈ level.dropLast := by
  induction level using pairs.induct with
  | case1 => cases h
  | case2 l => cases h
  | case3 l r rest ih =>
    cases rest with
    | nil => cases h
    | cons x rest =>
      rw [pairs, List.dropLast_cons_of_ne_nil (pairs_ne_nil (List.cons_ne_nil x rest))] at h
      rcases List.mem_cons.mp h with rfl | h
      · exact List.mem_cons_of_mem _ List.mem_cons_self
      · exact List.mem_cons_of_mem _ (List.mem_cons_of_mem _ (ih h))

theorem getLast?_pairs_cons (l r x : α) (rest : List α) :
    (pairs (l :: r :: x :: rest)).getLast? = (pairs (x :: rest)).getLast? := by
  rcases List.exists_cons_of_ne_nil (pairs_ne_nil (List.cons_ne_nil x rest)) with ⟨q, qs, hcons⟩
  rw [pairs, hcons, List.getLast?_cons_cons]

theorem snd_getLast {p : α × α} (h : p ∈ (pairs level).getLast?) :
    p.2 ∈ level.getLast? := by
  induction level using pairs.induct with
  | case1 => cases h
  | case2 l =>
    cases h
    rfl
  | case3 l r rest ih =>
    cases rest with
    | nil =>
      cases h
      rfl
    | cons x rest =>
      rw [List.getLast?_cons_cons, List.getLast?_cons_cons]
      rw [getLast?_pairs_cons] at h
      exact ih h

theorem lastFresh_pairs (h : LastFresh level) : LastFresh (pairs level) :=
  fun _ hp hmem => h _ (snd_getLast hp) (snd_mem_dropLast hmem)

theorem twins_of_mem_dropLast {x : α} (h : (x, x) ∈ (pairs level).dropLast) :
    Twins level := by
  induction level using pairs.induct with
  | case1 => cases h
  | case2 l => cases h
  | case3 l r rest ih =>
    cases rest with
    | nil => cases h
    | cons y rest =>
      rw [pairs, List.dropLast_cons_of_ne_nil (pairs_ne_nil (List.cons_ne_nil y rest))] at h
      rcases List.mem_cons.mp h with heq | h
      · cases heq
        exact .inl rfl
      · exact .inr (ih h)

theorem getLast?_pairs_of_odd (hodd : ¬ Even level.length) {p : α × α}
    (h : p ∈ (pairs level).getLast?) : p.1 = p.2 := by
  induction level using pairs.induct with
  | case1 => cases h
  | case2 l =>
    cases h
    rfl
  | case3 l r rest ih =>
    cases rest with
    | nil => exact absurd ⟨1, rfl⟩ hodd
    | cons x rest =>
      have hrest : ¬ Even (x :: rest).length := by
        simpa [Nat.even_add_one] using hodd
      rw [getLast?_pairs_cons] at h
      exact ih hrest h

/-- The pairs of a level are those of any level that extends it, up to a last pair that is padding:
it occurs nowhere else, or there are twins. -/
theorem pairs_of_prefix {xs ys : List α} (h : xs <+: ys) :
    pairs xs <+: pairs ys ∨ LastFresh (pairs xs) ∨ Twins ys := by
  by_cases heven : Even xs.length
  · exact .inl (pairs_initial heven h)
  by_cases htwins : Twins xs
  · exact .inr (.inr (twins_of_initial h htwins))
  · refine .inr (.inl ?_)
    intro p hp hmem
    have hpad : p = (p.1, p.1) := Prod.ext rfl (getLast?_pairs_of_odd heven hp).symm
    rw [hpad] at hmem
    exact htwins (twins_of_mem_dropLast hmem)

/-! ## Whole trees -/

section Trees

variable (node : α → α → α)

def parents (level : List α) : List α := (pairs level).map fun p => node p.1 p.2

/-- The levels of a list below the root, and the root. -/
inductive Joins : List α → List (List α) → α → Prop
  | root (x : α) : Joins [x] [] x
  | level {level : List α} {levels : List (List α)} {root : α} (hlen : 2 ≤ level.length)
      (h : Joins (parents node level) levels root) : Joins level (level :: levels) root

variable {node} {xs ys : List α} {lx ly : List (List α)} {r r' : α}

theorem length_parents (level : List α) :
    (parents node level).length = (level.length + 1) / 2 := by
  rw [parents, List.length_map, length_pairs]

theorem Joins.ne_nil (h : Joins node xs lx r) : xs ≠ [] := by
  cases h with
  | root x => exact List.cons_ne_nil _ _
  | level hlen h =>
    rintro rfl
    simp at hlen

/-- Joining is injective on the pairs of the levels. -/
def InjectiveOn (node : α → α → α) (levels : List (List α)) : Prop :=
  Set.InjOn (fun p : α × α => node p.1 p.2) {p | p ∈ levels.flatMap pairs}

theorem InjectiveOn.mono {levels levels' : List (List α)} (h : InjectiveOn node levels)
    (hsub : levels' ⊆ levels) : InjectiveOn node levels' := by
  refine Set.InjOn.mono ?_ h
  intro p hp
  rcases List.mem_flatMap.mp hp with ⟨level, hlevel, hp⟩
  exact List.mem_flatMap.mpr ⟨level, hsub hlevel, hp⟩

theorem map_injOn {β γ : Type} {f : β → γ} {s : Set β} (hf : Set.InjOn f s) {l l' : List β}
    (hl : ∀ x ∈ l, x ∈ s) (hl' : ∀ x ∈ l', x ∈ s) (h : l.map f = l'.map f) : l = l' := by
  induction l generalizing l' with
  | nil => exact (List.map_eq_nil_iff.mp h.symm).symm
  | cons x l ih =>
    cases l' with
    | nil => cases h
    | cons x' l' =>
      rw [List.forall_mem_cons] at hl hl'
      rcases List.cons.inj h with ⟨hhead, htail⟩
      rw [hf hl.1 hl'.1 hhead, ih hl.2 hl'.2 htail]

theorem InjectiveOn.pairs_eq {levels : List (List α)} (h : InjectiveOn node levels)
    (hx : xs ∈ levels) (hy : ys ∈ levels) (heq : parents node xs = parents node ys) :
    pairs xs = pairs ys := by
  refine map_injOn h ?_ ?_ heq
  · exact fun p hp => List.mem_flatMap.mpr ⟨xs, hx, hp⟩
  · exact fun p hp => List.mem_flatMap.mpr ⟨ys, hy, hp⟩

theorem Joins.eq_of_length_eq (hx : Joins node xs lx r) (hy : Joins node ys ly r)
    (hlen : lx.length = ly.length) (hinj : InjectiveOn node (lx ++ ly))
    (hcx : ∀ level ∈ lx, ¬ Twins level) (hcy : ∀ level ∈ ly, ¬ Twins level) : xs = ys := by
  induction hx generalizing ys ly with
  | root x =>
    cases hy with
    | root => rfl
    | level => cases hlen
  | @level xs lx r _ _ ih =>
    cases hy with
    | root => cases hlen
    | @level _ ly _ _ hy =>
      have hsub : lx ++ ly ⊆ xs :: lx ++ ys :: ly := by
        intro level hlevel
        rcases List.mem_append.mp hlevel with hlevel | hlevel
        · exact List.mem_append_left _ (List.mem_cons_of_mem _ hlevel)
        · exact List.mem_append_right _ (List.mem_cons_of_mem _ hlevel)
      have hparents : parents node xs = parents node ys :=
        ih hy (Nat.succ.inj hlen) (hinj.mono hsub)
          (fun level hlevel => hcx level (List.mem_cons_of_mem _ hlevel))
          (fun level hlevel => hcy level (List.mem_cons_of_mem _ hlevel))
      have hpairs := hinj.pairs_eq (List.mem_append_left _ List.mem_cons_self)
        (List.mem_append_right _ List.mem_cons_self) hparents
      exact eq_of_pairs_eq (hcx xs List.mem_cons_self) (hcy ys List.mem_cons_self)
        hpairs

theorem Joins.above (h : Joins node ys ly r) {k : Nat} (hk : k < ly.length) :
    ∃ zs, Joins node zs (ly.drop (k + 1)) r ∧ ∀ z ∈ zs, z ∈ ly.flatMap (parents node) := by
  induction h generalizing k with
  | root x => cases hk
  | @level ys ly r _ h ih =>
    cases k with
    | zero =>
      exact ⟨parents node ys, h, fun z hz => List.mem_flatMap.mpr ⟨ys, List.mem_cons_self, hz⟩⟩
    | succ k =>
      rcases ih (Nat.lt_of_succ_lt_succ hk) with ⟨zs, hzs, hmem⟩
      refine ⟨zs, hzs, fun z hz => ?_⟩
      rw [List.flatMap_cons]
      exact List.mem_append_right _ (hmem z hz)

section

variable (hx : Joins node xs lx r) (hy : Joins node ys ly r) (hinj : InjectiveOn node (lx ++ ly))
    (hcx : ∀ level ∈ lx, ¬ Twins level)

include hx hy hinj hcx

/-- A list is not the top of a higher tree whose inner nodes it avoids. -/
theorem Joins.not_lt (hcy : ∀ level ∈ ly, ¬ Twins level)
    (hdisj : ∀ x ∈ xs, x ∉ ly.flatMap (parents node)) : ¬ lx.length < ly.length := by
  intro hlt
  have hk : ly.length - lx.length - 1 < ly.length := by omega
  rcases hy.above hk with ⟨zs, hzs, hinner⟩
  have hsub : ly.drop (ly.length - lx.length - 1 + 1) ⊆ ly := List.drop_subset _ _
  have hlen : lx.length = (ly.drop (ly.length - lx.length - 1 + 1)).length := by
    rw [List.length_drop]
    omega
  have heq : xs = zs := by
    refine hx.eq_of_length_eq hzs hlen (hinj.mono ?_) hcx fun level hlevel =>
      hcy level (hsub hlevel)
    exact List.append_subset.mpr ⟨List.subset_append_left _ _,
      fun level hlevel => List.mem_append_right _ (hsub hlevel)⟩
  rcases List.exists_mem_of_ne_nil xs hx.ne_nil with ⟨x, hmem⟩
  exact hdisj x hmem (hinner x (heq ▸ hmem))

theorem Joins.eq (hcy : ∀ level ∈ ly, ¬ Twins level) (hdx : ∀ x ∈ xs, x ∉ ly.flatMap (parents node))
    (hdy : ∀ y ∈ ys, y ∉ lx.flatMap (parents node)) : xs = ys := by
  have hinj' : InjectiveOn node (ly ++ lx) := hinj.mono (List.append_subset.mpr
    ⟨List.subset_append_right _ _, List.subset_append_left _ _⟩)
  have hlx := hx.not_lt hy hinj hcx hcy hdx
  have hly := hy.not_lt hx hinj' hcy hcx hdy
  exact hx.eq_of_length_eq hy (by omega) hinj hcx hcy

end

theorem Joins.nodup (h : Joins node xs lx r) (hinj : InjectiveOn node lx) (hnodup : xs.Nodup) :
    ∀ level ∈ lx, level.Nodup := by
  induction h with
  | root x => exact fun level hlevel => absurd hlevel List.not_mem_nil
  | @level xs lx r _ _ ih =>
    have hparents : (parents node xs).Nodup := by
      refine List.Nodup.map_on ?_ (nodup_pairs hnodup)
      intro p hp q hq heq
      have hmem : ∀ p ∈ pairs xs, p ∈ (xs :: lx).flatMap pairs :=
        fun p hp => List.mem_flatMap.mpr ⟨xs, List.mem_cons_self, hp⟩
      exact hinj (hmem p hp) (hmem q hq) heq
    intro level hlevel
    rcases List.mem_cons.mp hlevel with rfl | hlevel
    · exact hnodup
    · exact ih (hinj.mono (List.subset_cons_self _ _)) hparents level hlevel

theorem lastFresh_parents {levels : List (List α)} (hinj : InjectiveOn node levels)
    (hmem : xs ∈ levels) (h : LastFresh (pairs xs)) : LastFresh (parents node xs) := by
  intro x hx hinit
  unfold parents at hx hinit
  rw [List.getLast?_map] at hx
  rw [← List.map_dropLast] at hinit
  rcases Option.mem_map.mp hx with ⟨p, hp, rfl⟩
  rcases List.mem_map.mp hinit with ⟨q, hq, heq⟩
  have hjoined : ∀ p ∈ pairs xs, p ∈ levels.flatMap pairs :=
    fun p hp => List.mem_flatMap.mpr ⟨xs, hmem, hp⟩
  have hpq : q = p := hinj (hjoined q (List.dropLast_subset _ hq))
    (hjoined p (List.mem_of_getLast? hp)) heq
  exact h p hp (hpq ▸ hq)

/-- Twins do not go away when elements are added behind them.  On every level the two lists agree up
to the last node of the shorter one, which may be padding. -/
theorem Joins.twins_of_dropLast_prefix (hx : Joins node xs lx r) (hy : Joins node ys ly r')
    (hinj : InjectiveOn node lx) (hinit : xs.dropLast <+: ys) (hlen : xs.length ≤ ys.length)
    (hlast : xs <+: ys ∨ LastFresh xs) (htwins : ∃ level ∈ lx, Twins level) :
    ∃ level ∈ ly, Twins level := by
  induction hx generalizing ys ly with
  | root x =>
    rcases htwins with ⟨level, hlevel, -⟩
    cases hlevel
  | @level xs lx r hlenx _ ih =>
    cases hy with
    | root y =>
      exact absurd (hlenx.trans hlen) (by simp)
    | @level _ ly _ _ hy =>
      by_cases htwinsy : Twins ys
      · exact ⟨ys, List.mem_cons_self, htwinsy⟩
      -- so there are none on the lowest level of the shorter list either
      have hclean : ¬ Twins xs := by
        intro htwinsx
        rcases hlast with hprefix | hfresh
        · exact htwinsy (PairTree.twins_of_initial hprefix htwinsx)
        · exact htwinsy (PairTree.twins_of_dropLast_prefix hfresh hinit htwinsx)
      have htwins' : ∃ level ∈ lx, Twins level := by
        rcases htwins with ⟨level, hlevel, htwins⟩
        rcases List.mem_cons.mp hlevel with rfl | hlevel
        · exact absurd htwins hclean
        · exact ⟨level, hlevel, htwins⟩
      have hlast' : parents node xs <+: parents node ys ∨ LastFresh (parents node xs) := by
        have hpairs : pairs xs <+: pairs ys ∨ LastFresh (pairs xs) := by
          rcases hlast with hprefix | hfresh
          · rcases pairs_of_prefix hprefix with hpairs | hfresh | htwins
            · exact .inl hpairs
            · exact .inr hfresh
            · exact absurd htwins htwinsy
          · exact .inr (lastFresh_pairs hfresh)
        rcases hpairs with hpairs | hfresh
        · exact .inl (hpairs.map _)
        · exact .inr (lastFresh_parents hinj List.mem_cons_self hfresh)
      have hinit' : (parents node xs).dropLast <+: parents node ys := by
        unfold parents
        rw [← List.map_dropLast]
        exact (dropLast_pairs_initial hinit).map _
      have hlen' : (parents node xs).length ≤ (parents node ys).length := by
        rw [length_parents, length_parents]
        omega
      rcases ih hy (hinj.mono (List.subset_cons_self _ _)) hinit' hlen' hlast' htwins' with
        ⟨level, hlevel, htwins⟩
      exact ⟨level, List.mem_cons_of_mem _ hlevel, htwins⟩

theorem Joins.twins_of_initial (hx : Joins node xs lx r) (hy : Joins node ys ly r')
    (hinj : InjectiveOn node lx) (h : xs <+: ys) (htwins : ∃ level ∈ lx, Twins level) :
    ∃ level ∈ ly, Twins level :=
  hx.twins_of_dropLast_prefix hy hinj ((List.dropLast_prefix xs).trans h) h.length_le (.inl h)
    htwins

end Trees

end Floresta.PairTree
