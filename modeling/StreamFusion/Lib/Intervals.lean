import Mathlib.Data.List.Basic
import Mathlib.Data.List.Pairwise
import Mathlib.Logic.Relation
import Mathlib.Order.MinMax
import Mathlib.Tactic.Order

/-!
# Components of intervals

Items have closed intervals.  Two items are linked if a chain of items leads from one to the other
in which neighbours touch.  A cover lists the spans of the components: its intervals do not touch
one another, every item lies inside one of them, and each of them is the span of the items inside,
which are linked (`Covers`).  So the component of an item consists of the items inside its interval
of the cover (`Covers.linked_iff`).

A new item joins the intervals that it touches itself, and since the others are apart from those
they are apart from the union too (`Covers.insert`); and an interval can leave together with its
items (`Covers.filter`).
-/

namespace Intervals

/-- A closed interval. -/
structure Extent (τ : Type) where
  lo : τ
  hi : τ
  deriving DecidableEq

section

variable {τ : Type} [LinearOrder τ]

namespace Extent

/-- The intervals have a point in common. -/
def Touches (i j : Extent τ) : Prop := i.lo ≤ j.hi ∧ j.lo ≤ i.hi

/-- One interval lies in the other. -/
def Inside (i j : Extent τ) : Prop := j.lo ≤ i.lo ∧ i.hi ≤ j.hi

instance (i j : Extent τ) : Decidable (i.Touches j) :=
  inferInstanceAs (Decidable (i.lo ≤ j.hi ∧ j.lo ≤ i.hi))

instance (i j : Extent τ) : Decidable (i.Inside j) :=
  inferInstanceAs (Decidable (j.lo ≤ i.lo ∧ i.hi ≤ j.hi))

/-- The smallest interval around two. -/
def hull (i j : Extent τ) : Extent τ := ⟨min i.lo j.lo, max i.hi j.hi⟩

variable {i j : Extent τ}

theorem Touches.symm (h : i.Touches j) : j.Touches i := ⟨h.2, h.1⟩

/-- The intervals have no point in common. -/
def Apart (i j : Extent τ) : Prop := ¬ i.Touches j

instance : Std.Symm (@Apart τ _) := ⟨fun _ _ hnot htouch => hnot htouch.symm⟩

theorem inside_refl (i : Extent τ) : i.Inside i := ⟨le_refl _, le_refl _⟩

variable {k : Extent τ}

theorem Inside.trans (h : i.Inside j) (h' : j.Inside k) : i.Inside k :=
  ⟨h'.1.trans h.1, h.2.trans h'.2⟩

theorem inside_hull_left (i j : Extent τ) : i.Inside (i.hull j) :=
  ⟨min_le_left _ _, le_max_left _ _⟩

theorem inside_hull_right (i j : Extent τ) : j.Inside (i.hull j) :=
  ⟨min_le_right _ _, le_max_right _ _⟩

theorem Touches.mono {i' j' : Extent τ} (h : i.Touches j) (hi : i.Inside i')
    (hj : j.Inside j') : i'.Touches j' :=
  ⟨hi.1.trans (h.1.trans hj.2), hj.1.trans (h.2.trans hi.2)⟩

/-- An interval that touches the hull of two that touch, touches one of the two. -/
theorem Touches.of_hull (hij : i.Touches j) (hvalid : k.lo ≤ k.hi)
    (h : (i.hull j).Touches k) : i.Touches k ∨ j.Touches k := by
  obtain ⟨hlo, hhi⟩ := h
  obtain ⟨hij, hji⟩ := hij
  simp only [hull, min_le_iff, le_max_iff] at hlo hhi
  rcases hlo with hlo | hlo <;> rcases hhi with hhi | hhi
  · exact Or.inl ⟨hlo, hhi⟩
  · by_cases hk : k.lo ≤ i.hi
    · exact Or.inl ⟨hlo, hk⟩
    · exact Or.inr ⟨by order, hhi⟩
  · by_cases hk : i.lo ≤ k.hi
    · exact Or.inl ⟨hk, hhi⟩
    · exact Or.inr ⟨hlo, by order⟩
  · exact Or.inr ⟨hlo, hhi⟩

end Extent

end

open Extent List

section

variable {τ ι : Type} [LinearOrder τ] (extent : ι → Extent τ)

/-- A chain of items leads from `i` to `j`, and neighbours touch. -/
def Linked (items : List ι) : ι → ι → Prop :=
  Relation.ReflTransGen fun i j => i ∈ items ∧ j ∈ items ∧ (extent i).Touches (extent j)

/-- The bounds reach from the first to the last point of the items. -/
structure IsSpan (items : List ι) (bounds : Extent τ) : Prop where
  inside : ∀ i ∈ items, (extent i).Inside bounds
  lo_mem : ∃ i ∈ items, (extent i).lo = bounds.lo
  hi_mem : ∃ i ∈ items, (extent i).hi = bounds.hi

/-- The items that lie in an interval. -/
def itemsIn (items : List ι) (bounds : Extent τ) : List ι :=
  items.filter fun i => (extent i).Inside bounds

/-- The cover lists the spans of the components of the items. -/
structure Covers (items : List ι) (cover : List (Extent τ)) : Prop where
  apart : cover.Pairwise Apart
  inside : ∀ i ∈ items, ∃ b ∈ cover, (extent i).Inside b
  span : ∀ b ∈ cover, IsSpan extent (itemsIn extent items b) b
  linked : ∀ b ∈ cover, ∀ i ∈ itemsIn extent items b, ∀ j ∈ itemsIn extent items b,
    Linked extent items i j

variable {extent}

variable {items : List ι} {bounds : Extent τ} {i : ι}

theorem mem_itemsIn : i ∈ itemsIn extent items bounds ↔ i ∈ items ∧ (extent i).Inside bounds := by
  unfold itemsIn
  rw [mem_filter, decide_eq_true_eq]

/-- The items that leave are not inside the bounds. -/
theorem itemsIn_filter {stays : ι → Bool} (h : ∀ i ∈ itemsIn extent items bounds, stays i = true) :
    itemsIn extent (items.filter stays) bounds = itemsIn extent items bounds := by
  unfold itemsIn
  rw [filter_filter]
  refine filter_congr fun i hi => ?_
  by_cases hin : (extent i).Inside bounds
  · rw [h i (mem_itemsIn.mpr ⟨hi, hin⟩), Bool.and_true]
  · rw [decide_eq_false hin, Bool.false_and]

variable {j : ι}

theorem Linked.symm (h : Linked extent items i j) : Linked extent items j i := by
  induction h with
  | refl => exact Relation.ReflTransGen.refl
  | tail _ hstep ih =>
    obtain ⟨hi, hj, htouch⟩ := hstep
    exact ih.head ⟨hj, hi, htouch.symm⟩

theorem Linked.mono {items' : List ι} (hsub : ∀ i ∈ items, i ∈ items')
    (h : Linked extent items i j) : Linked extent items' i j := by
  refine Relation.ReflTransGen.mono ?_ i j h
  rintro i j ⟨hi, hj, htouch⟩
  exact ⟨hsub i hi, hsub j hj, htouch⟩

theorem covers_nil : Covers extent [] [] :=
  ⟨List.Pairwise.nil, by simp, by simp, by simp⟩

variable {cover : List (Extent τ)} {b : Extent τ}

namespace Covers

/-- Two intervals of the cover that touch are the same. -/
theorem eq_of_touches (h : Covers extent items cover) {b b' : Extent τ} (hb : b ∈ cover)
    (hb' : b' ∈ cover) (htouch : b.Touches b') : b = b' := by
  by_contra hne
  exact h.apart.forall hb hb' hne htouch

section

variable (h : Covers extent items cover) (hb : b ∈ cover) {i j : ι}
include h hb

/-- A chain does not leave the interval that it starts in. -/
theorem inside_of_linked (hi : (extent i).Inside b) (hij : Linked extent items i j) :
    (extent j).Inside b := by
  induction hij with
  | refl => exact hi
  | tail _ hstep hin =>
    obtain ⟨-, hj, htouch⟩ := hstep
    obtain ⟨b', hb', hin'⟩ := h.inside _ hj
    rw [h.eq_of_touches hb hb' (htouch.mono hin hin')]
    exact hin'

/-- **Components.**  The items linked with an item are those inside its interval. -/
theorem linked_iff (hi : i ∈ itemsIn extent items b) (hj : j ∈ items) :
    Linked extent items i j ↔ j ∈ itemsIn extent items b := by
  constructor
  · intro hij
    exact mem_itemsIn.mpr ⟨hj, h.inside_of_linked hb (mem_itemsIn.mp hi).2 hij⟩
  · exact h.linked b hb i hi j

end

theorem perm {cover' : List (Extent τ)} (h : Covers extent items cover)
    (hperm : cover.Perm cover') : Covers extent items cover' where
  apart := (hperm.pairwise_iff symm).mp h.apart
  inside i hi := by
    obtain ⟨b, hb, hin⟩ := h.inside i hi
    exact ⟨b, hperm.mem_iff.mp hb, hin⟩
  span b hb := h.span b (hperm.mem_iff.mpr hb)
  linked b hb := h.linked b (hperm.mem_iff.mpr hb)

/-- Some of the intervals leave, with the items inside them. -/
theorem filter (h : Covers extent items cover) (keep : Extent τ → Bool) (stays : ι → Bool)
    (hstays : ∀ b ∈ cover, ∀ i ∈ itemsIn extent items b, stays i = keep b) :
    Covers extent (items.filter stays) (cover.filter keep) := by
  have hitems : ∀ b ∈ cover.filter keep, itemsIn extent (items.filter stays) b =
      itemsIn extent items b := by
    intro b hb
    obtain ⟨hb, hkeep⟩ := mem_filter.mp hb
    refine itemsIn_filter fun i hi => ?_
    rw [hstays b hb i hi, hkeep]
  refine ⟨h.apart.filter _, fun i hi => ?_, fun b hb => ?_, fun b hb i hi j hj => ?_⟩
  · obtain ⟨hi, hstay⟩ := mem_filter.mp hi
    obtain ⟨b, hb, hin⟩ := h.inside i hi
    rw [hstays b hb i (mem_itemsIn.mpr ⟨hi, hin⟩)] at hstay
    exact ⟨b, mem_filter.mpr ⟨hb, hstay⟩, hin⟩
  · rw [hitems b hb]
    exact h.span b (mem_of_mem_filter hb)
  · rw [hitems b hb] at hi hj
    obtain ⟨hb, hkeep⟩ := mem_filter.mp hb
    have hij := h.linked b hb i hi j hj
    -- the chain stays inside `b`, hence its items stay
    have hstep : ∀ k, Linked extent items i k → Linked extent (items.filter stays) i k := by
      intro k hik
      induction hik with
      | refl => exact Relation.ReflTransGen.refl
      | tail hpath hstep ih =>
        obtain ⟨hk, hl, htouch⟩ := hstep
        have hin := h.inside_of_linked hb (mem_itemsIn.mp hi).2 hpath
        have hin' := h.inside_of_linked hb (mem_itemsIn.mp hi).2 (hpath.tail ⟨hk, hl, htouch⟩)
        refine ih.tail ⟨mem_filter.mpr ⟨hk, ?_⟩, mem_filter.mpr ⟨hl, ?_⟩, htouch⟩
        · rw [hstays b hb _ (mem_itemsIn.mpr ⟨hk, hin⟩), hkeep]
        · rw [hstays b hb _ (mem_itemsIn.mpr ⟨hl, hin'⟩), hkeep]
    exact hstep j hij

end Covers

/-! ## Parts of a list -/

/-- Parts that exclude one another make up what is in one of them. -/
theorem perm_flatMap_filter {σ α : Type} (part : σ → α → Bool) {parts : List σ} {items : List α}
    (h : parts.Pairwise fun s s' => ∀ a ∈ items, part s a = true → part s' a = false) :
    (parts.flatMap fun s => items.filter (part s)).Perm
      (items.filter fun a => parts.any fun s => part s a) := by
  induction parts with
  | nil => simp
  | cons s parts ih =>
    obtain ⟨hfirst, hrest⟩ := pairwise_cons.mp h
    have hin : (items.filter fun a => (s :: parts).any fun s => part s a).filter (part s) =
        items.filter (part s) := by
      rw [filter_filter]
      refine filter_congr fun a _ => ?_
      cases hpart : part s a <;> simp [hpart]
    have hout : (items.filter fun a => (s :: parts).any fun s => part s a).filter
        (fun a => !part s a) = items.filter fun a => parts.any fun s => part s a := by
      rw [filter_filter]
      refine filter_congr fun a ha => ?_
      cases hpart : part s a with
      | false => simp [hpart]
      | true =>
        have hnone : (parts.any fun s => part s a) = false := by
          rw [any_eq_false]
          intro s' hs'
          simp [hfirst s' hs' a ha hpart]
        simp [hnone]
    have hsplit :=
      filter_append_perm (part s) (items.filter fun a => (s :: parts).any fun s => part s a)
    rw [hin, hout] at hsplit
    rw [flatMap_cons]
    exact ((ih hrest).append_left _).trans hsplit

/-! ## A new item -/

/-- The hull of an interval and those of a list. -/
def hullAll (b : Extent τ) (joined : List (Extent τ)) : Extent τ := joined.foldl hull b

section

variable (b : Extent τ) (joined : List (Extent τ))

/-- The hull holds what it joins. -/
theorem inside_hullAll :
    b.Inside (hullAll b joined) ∧ ∀ b' ∈ joined, b'.Inside (hullAll b joined) := by
  induction joined generalizing b with
  | nil => exact ⟨inside_refl b, by simp⟩
  | cons first joined ih =>
    obtain ⟨hb, hjoined⟩ := ih (b.hull first)
    refine ⟨(inside_hull_left b first).trans hb, fun b' hb' => ?_⟩
    rcases mem_cons.mp hb' with rfl | hb'
    · exact (inside_hull_right b b').trans hb
    · exact hjoined b' hb'

theorem lo_hullAll :
    (hullAll b joined).lo = b.lo ∨ ∃ b' ∈ joined, (hullAll b joined).lo = b'.lo := by
  induction joined generalizing b with
  | nil => exact Or.inl rfl
  | cons first joined ih =>
    rcases ih (b.hull first) with h | ⟨b', hb', h⟩
    · rcases min_choice b.lo first.lo with hmin | hmin
      · exact Or.inl (h.trans hmin)
      · exact Or.inr ⟨first, mem_cons_self, h.trans hmin⟩
    · exact Or.inr ⟨b', mem_cons_of_mem _ hb', h⟩

theorem hi_hullAll :
    (hullAll b joined).hi = b.hi ∨ ∃ b' ∈ joined, (hullAll b joined).hi = b'.hi := by
  induction joined generalizing b with
  | nil => exact Or.inl rfl
  | cons first joined ih =>
    rcases ih (b.hull first) with h | ⟨b', hb', h⟩
    · rcases max_choice b.hi first.hi with hmax | hmax
      · exact Or.inl (h.trans hmax)
      · exact Or.inr ⟨first, mem_cons_self, h.trans hmax⟩
    · exact Or.inr ⟨b', mem_cons_of_mem _ hb', h⟩

end

/-- An interval apart from those that touch `b`, and from `b`, is apart from their hull. -/
theorem not_touches_hullAll {k : Extent τ} {joined : List (Extent τ)} (hvalid : k.lo ≤ k.hi)
    (htouch : ∀ b' ∈ joined, b.Touches b') (hb : ¬ b.Touches k)
    (hjoined : ∀ b' ∈ joined, ¬ b'.Touches k) : ¬ (hullAll b joined).Touches k := by
  induction joined generalizing b with
  | nil => exact hb
  | cons first joined ih =>
    refine ih (fun b' hb' => ?_) (fun htouches => ?_) fun b' hb' =>
      hjoined b' (mem_cons_of_mem _ hb')
    · exact (htouch b' (mem_cons_of_mem _ hb')).mono (inside_hull_left b first) (inside_refl b')
    · rcases (htouch first mem_cons_self).of_hull hvalid htouches with h | h
      · exact hb h
      · exact hjoined first mem_cons_self h

/-- A chain passes over every point between its ends. -/
theorem Linked.exists_over (h : Linked extent items i j) {p : τ}
    (hlo : (extent i).lo ≤ p) (hhi : p ≤ (extent j).hi) :
    ∃ k, Linked extent items i k ∧ (extent k).lo ≤ p ∧ p ≤ (extent k).hi := by
  induction h with
  | refl => exact ⟨i, Relation.ReflTransGen.refl, hlo, hhi⟩
  | @tail m j hpath hstep ih =>
    by_cases hp : p ≤ (extent m).hi
    · exact ih hp
    · refine ⟨j, hpath.tail hstep, ?_, hhi⟩
      exact hstep.2.2.2.trans (le_of_lt (not_le.mp hp))

/-- An interval that touches one of the cover touches an item inside it. -/
theorem Covers.exists_touches
    (h : Covers extent items cover) {b' : Extent τ} (hb : b ∈ cover) (hvalid : b'.lo ≤ b'.hi)
    (hbounds : b.lo ≤ b.hi) (htouch : b'.Touches b) :
    ∃ k ∈ itemsIn extent items b, b'.Touches (extent k) := by
  obtain ⟨first, hfirst, hlo⟩ := (h.span b hb).lo_mem
  obtain ⟨last, hlast, hhi⟩ := (h.span b hb).hi_mem
  have hlinked := h.linked b hb first hfirst last hlast
  obtain ⟨k, hk, hklo, hkhi⟩ := hlinked.exists_over (p := max b'.lo b.lo)
    (hlo ▸ le_max_right _ _) (hhi ▸ max_le htouch.1 hbounds)
  have hkitem : k ∈ items := by
    rcases Relation.ReflTransGen.cases_tail hk with rfl | ⟨m, -, hstep⟩
    · exact (mem_itemsIn.mp hfirst).1
    · exact hstep.2.1
  refine ⟨k, (h.linked_iff hb hfirst hkitem).mp hk, (le_max_left _ _).trans hkhi, ?_⟩
  exact hklo.trans (max_le hvalid htouch.2)

section

theorem Covers.lo_le_hi (h : Covers extent items cover)
    (hitems : ∀ i ∈ items, (extent i).lo ≤ (extent i).hi) : ∀ b ∈ cover, b.lo ≤ b.hi := by
  intro b hb
  obtain ⟨i, hi, hlo⟩ := (h.span b hb).lo_mem
  obtain ⟨hi, hin⟩ := mem_itemsIn.mp hi
  exact hlo ▸ (hitems i hi).trans hin.2

/-- The parts of a cover that an interval touches. -/
def touched (cover : List (Extent τ)) (b : Extent τ) : List (Extent τ) :=
  cover.filter fun b' => b.Touches b'

theorem mem_touched {b b' : Extent τ} : b' ∈ touched cover b ↔ b' ∈ cover ∧ b.Touches b' := by
  unfold touched
  rw [mem_filter, decide_eq_true_eq]

section

variable (h : Covers extent items cover) (hitems : ∀ i ∈ items, (extent i).lo ≤ (extent i).hi)
include h hitems

/-- The other intervals are apart from the union. -/
theorem Covers.apart_merged (b : Extent τ) {k : Extent τ} (hk : k ∈ cover) (hnot : ¬ b.Touches k) :
    ¬ (hullAll b (touched cover b)).Touches k := by
  refine not_touches_hullAll (h.lo_le_hi hitems k hk) (fun b' hb' => (mem_touched.mp hb').2) hnot
    fun b' hb' htouch => ?_
  obtain ⟨hmem, htouched⟩ := mem_touched.mp hb'
  exact hnot (h.eq_of_touches hmem hk htouch ▸ htouched)

/-- An item is inside the union if it is inside one of the intervals joined. -/
theorem Covers.inside_merged_iff (b : Extent τ) (hi : i ∈ items) :
    (extent i).Inside (hullAll b (touched cover b)) ↔ ∃ b' ∈ touched cover b,
        (extent i).Inside b' := by
  constructor
  · intro hinside
    obtain ⟨k, hk, hik⟩ := h.inside i hi
    refine ⟨k, mem_touched.mpr ⟨hk, ?_⟩, hik⟩
    by_contra hnot
    exact h.apart_merged hitems b hk hnot
      ⟨(hinside.1.trans (hitems i hi)).trans hik.2, hik.1.trans ((hitems i hi).trans hinside.2)⟩
  · rintro ⟨b', hb', hin⟩
    exact hin.trans ((inside_hullAll b (touched cover b)).2 b' hb')

/-- The items of the union are those of the intervals joined. -/
theorem Covers.itemsIn_merged (b : Extent τ) :
    ((touched cover b).flatMap (itemsIn extent items)).Perm
      (itemsIn extent items (hullAll b (touched cover b))) := by
  have hparts : (touched cover b).Pairwise fun b' b'' => ∀ i ∈ items,
      decide ((extent i).Inside b') = true → decide ((extent i).Inside b'') = false := by
    refine (h.apart.filter _).imp fun hapart i hi hin => ?_
    refine decide_eq_false fun hin' => hapart ?_
    obtain ⟨hlo, hhi⟩ := of_decide_eq_true hin
    exact ⟨(hlo.trans (hitems i hi)).trans hin'.2, hin'.1.trans ((hitems i hi).trans hhi)⟩
  refine (perm_flatMap_filter (fun b' i => decide ((extent i).Inside b')) hparts).trans ?_
  refine List.Perm.of_eq (filter_congr fun i hi => ?_)
  rw [Bool.eq_iff_iff, any_eq_true, decide_eq_true_eq, h.inside_merged_iff hitems b hi]
  simp only [decide_eq_true_eq]

end

/-- **Insertion.**  A new item joins the intervals that it touches. -/
theorem Covers.insert (h : Covers extent items cover) {item : ι}
    (hitem : (extent item).lo ≤ (extent item).hi)
    (hitems : ∀ i ∈ items, (extent i).lo ≤ (extent i).hi) :
    Covers extent (items ++ [item]) (cover.filter (fun b => ¬ (extent item).Touches b) ++
      [hullAll (extent item) (touched cover (extent item))]) := by
  obtain ⟨hin, hjoined⟩ := inside_hullAll (extent item) (touched cover (extent item))
  have hapart := fun k hk => h.apart_merged hitems (extent item) (k := k) hk
  have hinside := fun i hi => h.inside_merged_iff hitems (extent item) (i := i) hi
  generalize hmerged : hullAll (extent item) (touched cover (extent item)) = merged
    at hin hjoined hapart hinside
  have hsub : ∀ i ∈ items, i ∈ items ++ [item] := fun i hi => mem_append_left _ hi
  have houtside : ∀ b ∈ cover, ¬ (extent item).Touches b →
      itemsIn extent (items ++ [item]) b = itemsIn extent items b := by
    intro b hb hnot
    have hout : ¬ (extent item).Inside b := fun hinside =>
      hnot ⟨hitem.trans hinside.2, hinside.1.trans hitem⟩
    simp [itemsIn, hout]
  -- every item inside the union is linked with the new one
  have hall : ∀ i ∈ itemsIn extent (items ++ [item]) merged,
      Linked extent (items ++ [item]) i item := by
    intro i hi
    obtain ⟨hi, hin⟩ := mem_itemsIn.mp hi
    rcases mem_append.mp hi with hi | hi
    · obtain ⟨b, hb, hib⟩ := (hinside i hi).mp hin
      obtain ⟨hb, htouch⟩ := mem_touched.mp hb
      obtain ⟨k, hk, hktouch⟩ := h.exists_touches hb hitem (h.lo_le_hi hitems b hb) htouch
      have hik := h.linked b hb i (mem_itemsIn.mpr ⟨hi, hib⟩) k hk
      exact (hik.mono hsub).tail ⟨hsub k (mem_itemsIn.mp hk).1, by simp, hktouch.symm⟩
    · cases mem_singleton.mp hi
      exact Relation.ReflTransGen.refl
  refine ⟨?_, fun i hi => ?_, fun b hb => ?_, fun b hb i hi j hj => ?_⟩
  · refine pairwise_append.mpr ⟨h.apart.filter _, pairwise_singleton _ _, ?_⟩
    intro b hb b' hb'
    cases mem_singleton.mp hb'
    obtain ⟨hb, hnot⟩ := mem_filter.mp hb
    exact fun htouch => hapart b hb (by simpa using hnot) htouch.symm
  · rcases mem_append.mp hi with hi | hi
    · obtain ⟨b, hb, hib⟩ := h.inside i hi
      by_cases htouch : (extent item).Touches b
      · exact ⟨merged, by simp, hib.trans (hjoined b (mem_touched.mpr ⟨hb, htouch⟩))⟩
      · exact ⟨b, mem_append_left _ (mem_filter.mpr ⟨hb, by simpa using htouch⟩), hib⟩
    · cases mem_singleton.mp hi
      exact ⟨merged, by simp, hin⟩
  · rcases mem_append.mp hb with hb | hb
    · obtain ⟨hb, hnot⟩ := mem_filter.mp hb
      rw [houtside b hb (by simpa using hnot)]
      exact h.span b hb
    · cases mem_singleton.mp hb
      have hnew : item ∈ itemsIn extent (items ++ [item]) merged := mem_itemsIn.mpr ⟨by simp, hin⟩
      have hold : ∀ b ∈ touched cover (extent item), ∀ i ∈ itemsIn extent items b,
          i ∈ itemsIn extent (items ++ [item]) merged := by
        intro b hb i hi
        obtain ⟨hi, hib⟩ := mem_itemsIn.mp hi
        exact mem_itemsIn.mpr ⟨hsub i hi, hib.trans (hjoined b hb)⟩
      refine ⟨fun i hi => (mem_itemsIn.mp hi).2, ?_, ?_⟩
      · rcases lo_hullAll (extent item) (touched cover (extent item)) with hlo | ⟨b, hb, hlo⟩
        · exact ⟨item, hnew, hmerged ▸ hlo.symm⟩
        · obtain ⟨i, hi, hilo⟩ := (h.span b (mem_touched.mp hb).1).lo_mem
          exact ⟨i, hold b hb i hi, hmerged ▸ hilo.trans hlo.symm⟩
      · rcases hi_hullAll (extent item) (touched cover (extent item)) with hhi | ⟨b, hb, hhi⟩
        · exact ⟨item, hnew, hmerged ▸ hhi.symm⟩
        · obtain ⟨i, hi, hihi⟩ := (h.span b (mem_touched.mp hb).1).hi_mem
          exact ⟨i, hold b hb i hi, hmerged ▸ hihi.trans hhi.symm⟩
  · rcases mem_append.mp hb with hb | hb
    · obtain ⟨hb, hnot⟩ := mem_filter.mp hb
      rw [houtside b hb (by simpa using hnot)] at hi hj
      exact (h.linked b hb i hi j hj).mono hsub
    · cases mem_singleton.mp hb
      exact (hall i hi).trans (hall j hj).symm

end

end

end Intervals
