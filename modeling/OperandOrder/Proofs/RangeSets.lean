import Mathlib.Data.List.Pairwise
import Mathlib.Data.List.Sort
import Mathlib.Data.List.TakeWhile
import Mathlib.Order.Basic
import OperandOrder.RangeSet

/-!
# What a set of ranges holds

Ranges are inserted one after the other, and each absorbs the entries that it overlaps. What comes
of that is said without following the order in which things are absorbed:

* `RangeSet.forall_mem_ofList`: what holds of the ranges that go in, and is kept when two that
  overlap are merged, holds of every entry.
* `RangeSet.exists_contains_of_mem`: every range that goes in lies in some entry.
* `RangeSet.tidy_ofList`: the entries are ordered by start, and no two of them overlap.
* `RangeSet.holds_of_forall`: a tidy set that holds the ranges that go in holds what they are merged
  to. Two entries that hold overlapping ranges overlap themselves, so they are one. Hence the
  entries only grow with more ranges (`RangeSet.contains_of_subset`).

None of this asks for ranges that are not inverted. If none is, then each entry ends before the next
one begins (`RangeSet.stop_lt_start`), and two sets that hold each other's ranges are equal
(`RangeSet.ofList_eq_of_holds`).
-/

namespace OperandOrder

namespace Span

theorem contains_refl (s : Span) : s.contains s = true :=
  (contains_iff s s).mpr ⟨Nat.le_refl _, Nat.le_refl _⟩

/-- Containment goes through. -/
theorem contains_trans {a b c : Span} (hab : a.contains b = true) (hbc : b.contains c = true) :
    a.contains c = true := by
  rw [contains_iff] at hab hbc ⊢
  exact ⟨hab.1.trans hbc.1, hbc.2.trans hab.2⟩

/-- A union covers its first part. -/
theorem merge_contains_left (a b : Span) : (a.merge b).contains a = true :=
  (contains_iff _ _).mpr ⟨Nat.min_le_left _ _, Nat.le_max_left _ _⟩

/-- A union covers its second part. -/
theorem merge_contains_right (a b : Span) : (a.merge b).contains b = true :=
  (contains_iff _ _).mpr ⟨Nat.min_le_right _ _, Nat.le_max_right _ _⟩

/-- What covers two ranges covers their union. -/
theorem contains_merge {outer a b : Span} (ha : outer.contains a = true)
    (hb : outer.contains b = true) : outer.contains (a.merge b) = true := by
  rw [contains_iff] at ha hb ⊢
  exact ⟨Nat.le_min.mpr ⟨ha.1, hb.1⟩, Nat.max_le.mpr ⟨ha.2, hb.2⟩⟩

/-- Spans that contain each other are equal. -/
theorem contains_antisymm {a b : Span} (hab : a.contains b = true) (hba : b.contains a = true) :
    a = b := by
  rw [contains_iff] at hab hba
  obtain ⟨start, stop⟩ := a
  obtain ⟨start', stop'⟩ := b
  rw [mk.injEq]
  exact ⟨le_antisymm hab.1 hba.1, le_antisymm hba.2 hab.2⟩

/-- A span that is not inverted overlaps itself. -/
theorem overlaps_self {a : Span} (h : a.start ≤ a.stop) : a.overlaps a = true :=
  (overlaps_iff a a).mpr ⟨h, h⟩

/-- What holds overlapping spans overlaps. -/
theorem overlaps_of_contains {a b a' b' : Span} (ha : a'.contains a = true)
    (hb : b'.contains b = true) (h : a.overlaps b = true) : a'.overlaps b' = true := by
  rw [contains_iff] at ha hb
  rw [overlaps_iff] at h ⊢
  omega

instance : Std.Symm fun a b : Span => a.overlaps b = false :=
  ⟨fun a b h => by rwa [overlaps_comm]⟩

end Span

namespace RangeSet

/-! ### Absorption -/

/-- An entry that overlaps is taken in. -/
theorem absorbOnce_cons_of_overlaps {r e : Span} (h : e.overlaps r = true) (es : List Span) :
    absorbOnce r (e :: es) = absorbOnce (e.merge r) es := by
  rw [absorbOnce, if_pos h]

/-- An entry that does not overlap is kept. -/
theorem absorbOnce_cons_of_not_overlaps {r e : Span} (h : e.overlaps r = false) (es : List Span) :
    absorbOnce r (e :: es) = ((absorbOnce r es).1, e :: (absorbOnce r es).2) := by
  rw [absorbOnce, if_neg (by rw [h]; exact Bool.false_ne_true)]

/-- **What absorption leaves:** a range that has grown, and entries in their order; nothing
gets lost. -/
structure Absorbed (r : Span) (es : List Span) (result : Span × List Span) : Prop where
  grown : result.1.contains r = true
  rest : result.2.Sublist es
  covers : ∀ e ∈ es, e ∈ result.2 ∨ result.1.contains e = true

/-- What is absorbed in two goes is absorbed. -/
theorem Absorbed.trans {r : Span} {es : List Span} {once twice : Span × List Span}
    (h : Absorbed r es once) (h' : Absorbed once.1 once.2 twice) : Absorbed r es twice := by
  refine ⟨Span.contains_trans h'.grown h.grown, h'.rest.trans h.rest, fun e he => ?_⟩
  rcases h.covers e he with hrest | hgrown
  · exact h'.covers e hrest
  · exact .inr (Span.contains_trans h'.grown hgrown)

/-- **One go loses nothing:** an entry is kept, or it is covered by the range that has grown. -/
theorem absorbed_once (r : Span) (es : List Span) : Absorbed r es (absorbOnce r es) := by
  induction es generalizing r with
  | nil => exact ⟨Span.contains_refl r, List.Sublist.refl [], nofun⟩
  | cons e es ih =>
    by_cases hoverlaps : e.overlaps r = true
    · rw [absorbOnce_cons_of_overlaps hoverlaps]
      obtain ⟨hgrown, hrest, hcovers⟩ := ih (e.merge r)
      refine ⟨Span.contains_trans hgrown (Span.merge_contains_right e r), hrest.cons e, ?_⟩
      refine List.forall_mem_cons.mpr ⟨.inr ?_, hcovers⟩
      exact Span.contains_trans hgrown (Span.merge_contains_left e r)
    · rw [absorbOnce_cons_of_not_overlaps (by simpa using hoverlaps)]
      obtain ⟨hgrown, hrest, hcovers⟩ := ih r
      refine ⟨hgrown, hrest.cons_cons e, List.forall_mem_cons.mpr ⟨.inl List.mem_cons_self, ?_⟩⟩
      exact fun x hx => (hcovers x hx).imp_left (List.mem_cons_of_mem e)

/-- A pass that absorbs nothing has met nothing that overlaps. -/
theorem absorbOnce_of_length {r : Span} {es : List Span}
    (h : (absorbOnce r es).2.length = es.length) :
    absorbOnce r es = (r, es) ∧ ∀ e ∈ es, e.overlaps r = false := by
  induction es with
  | nil => exact ⟨rfl, nofun⟩
  | cons e es ih =>
    by_cases hoverlaps : e.overlaps r = true
    · -- the first entry is gone, and there are not more left than there were behind it
      rw [absorbOnce_cons_of_overlaps hoverlaps] at h
      have hle := absorbOnce_length_le (e.merge r) es
      rw [h, List.length_cons] at hle
      omega
    · have hoverlaps : e.overlaps r = false := by simpa using hoverlaps
      rw [absorbOnce_cons_of_not_overlaps hoverlaps] at h ⊢
      obtain ⟨hsame, hapart⟩ := ih (Nat.succ.inj h)
      exact ⟨by rw [hsame], List.forall_mem_cons.mpr ⟨hoverlaps, hapart⟩⟩

/-- Where a go has taken something in, there is another. -/
theorem absorb_of_length_lt {r : Span} {es : List Span}
    (h : (absorbOnce r es).2.length < es.length) :
    absorb r es = absorb (absorbOnce r es).1 (absorbOnce r es).2 := by
  rw [absorb, if_pos h]

/-- Where a go has taken nothing in, it was the last. -/
theorem absorb_of_length_eq {r : Span} {es : List Span}
    (h : (absorbOnce r es).2.length = es.length) : absorb r es = (r, es) := by
  rw [absorb, if_neg (by omega), (absorbOnce_of_length h).1]

/-- **Induction over passes.** The last one absorbs nothing. -/
theorem absorb_elim {motive : Span → List Span → Span × List Span → Prop}
    (last : ∀ r es, (∀ e ∈ es, e.overlaps r = false) → motive r es (r, es))
    (pass : ∀ r es result, motive (absorbOnce r es).1 (absorbOnce r es).2 result →
      motive r es result)
    (r : Span) (es : List Span) : motive r es (absorb r es) := by
  rcases Nat.lt_or_eq_of_le (absorbOnce_length_le r es) with hlt | heq
  · rw [absorb_of_length_lt hlt]
    exact pass r es _ (absorb_elim last pass (absorbOnce r es).1 (absorbOnce r es).2)
  · rw [absorb_of_length_eq heq]
    exact last r es (absorbOnce_of_length heq).2
termination_by es.length

/-- **Absorption loses nothing,** in any number of goes. -/
theorem absorbed_absorb (r : Span) (es : List Span) : Absorbed r es (absorb r es) := by
  refine absorb_elim (motive := Absorbed) ?_ ?_ r es
  · intro r es _
    exact ⟨Span.contains_refl r, List.Sublist.refl es, fun e he => .inl he⟩
  · intro r es result h
    exact (absorbed_once r es).trans h

/-- **Nothing that is left overlaps** the range that has grown. -/
theorem absorb_apart (r : Span) (es : List Span) :
    ∀ e ∈ (absorb r es).2, e.overlaps (absorb r es).1 = false :=
  absorb_elim (motive := fun _ _ result => ∀ e ∈ result.2, e.overlaps result.1 = false)
    (fun _ _ h => h) (fun _ _ _ h => h) r es

/-- **What holds of the growing range:** it is enough that every merger with an entry keeps it. -/
theorem absorb_induct {p : Span → Prop} (r : Span) (es : List Span) (hr : p r)
    (step : ∀ e ∈ es, ∀ s, p s → e.overlaps s = true → p (e.merge s)) : p (absorb r es).1 := by
  have honce : ∀ (es : List Span) (r : Span), p r →
      (∀ e ∈ es, ∀ s, p s → e.overlaps s = true → p (e.merge s)) → p (absorbOnce r es).1 := by
    intro es
    induction es with
    | nil => exact fun r hr _ => hr
    | cons e es ih =>
      intro r hr step
      obtain ⟨he, hes⟩ := List.forall_mem_cons.mp step
      by_cases hoverlaps : e.overlaps r = true
      · rw [absorbOnce_cons_of_overlaps hoverlaps]
        exact ih _ (he r hr hoverlaps) hes
      · rw [absorbOnce_cons_of_not_overlaps (by simpa using hoverlaps)]
        exact ih r hr hes
  refine absorb_elim (motive := fun r es result => p r →
    (∀ e ∈ es, ∀ s, p s → e.overlaps s = true → p (e.merge s)) → p result.1) ?_ ?_ r es hr step
  · exact fun r es _ hr _ => hr
  · intro r es result h hr step
    -- the entries that are left are among those that were there
    refine h (honce es r hr step) fun e he => step e ?_
    exact (absorbed_once r es).rest.subset he

/-! ### Insertion -/

/-- A range is put among the others. -/
theorem place_perm (r : Span) (es : List Span) : (place r es).Perm (r :: es) := by
  rw [place]
  refine List.perm_middle.trans ?_
  rw [List.takeWhile_append_dropWhile]

/-- A range is placed between those that start before it and the others. -/
theorem sorted_place {r : Span} {es : List Span} (h : es.Pairwise fun a b => a.start ≤ b.start) :
    (place r es).Pairwise fun a b => a.start ≤ b.start := by
  have hbefore : ∀ e ∈ es.takeWhile (·.start < r.start), e.start < r.start := by
    intro e he
    simpa using List.mem_takeWhile_imp he
  have hbehind : ∀ e ∈ es.dropWhile (·.start < r.start), r.start ≤ e.start := by
    have hdropped : (es.dropWhile (·.start < r.start)).Pairwise fun a b => a.start ≤ b.start :=
      h.sublist (List.dropWhile_sublist _)
    have hnot := List.head?_dropWhile_not (fun e : Span => decide (e.start < r.start)) es
    cases hcase : es.dropWhile (·.start < r.start) with
    | nil => exact nofun
    | cons first later =>
      -- the first of them does not start before the range, and the others do not start
      -- before the first
      rw [hcase] at hdropped hnot
      have hfirst : r.start ≤ first.start := by simpa using hnot
      refine List.forall_mem_cons.mpr ⟨hfirst, fun e he => ?_⟩
      exact hfirst.trans ((List.pairwise_cons.mp hdropped).1 e he)
  rw [place, List.pairwise_append, List.pairwise_cons]
  refine ⟨h.sublist (List.takeWhile_sublist _), ⟨hbehind, h.sublist (List.dropWhile_sublist _)⟩, ?_⟩
  intro a ha b hb
  have hlt := hbefore a ha
  rcases List.mem_cons.mp hb with rfl | hb
  · exact hlt.le
  · exact hlt.le.trans (hbehind b hb)

/-- After an insertion there are the range that has grown and the entries that it has not reached.
-/
theorem mem_insert_iff {set : RangeSet} {r e : Span} :
    e ∈ (set.insert r).entries ↔
      e = (absorb r set.entries).1 ∨ e ∈ (absorb r set.entries).2 :=
  (place_perm _ _).mem_iff.trans List.mem_cons

/-- **A tidy set:** its entries are ordered by start, and no two of them overlap. -/
structure Tidy (set : RangeSet) : Prop where
  sorted : set.entries.Pairwise fun a b => a.start ≤ b.start
  apart : set.entries.Pairwise fun a b => a.overlaps b = false

/-- **Insertion keeps a set tidy.** -/
theorem tidy_insert {set : RangeSet} (h : set.Tidy) (r : Span) : (set.insert r).Tidy := by
  have hrest := (absorbed_absorb r set.entries).rest
  refine ⟨sorted_place (h.sorted.sublist hrest), ?_⟩
  -- the order of the entries does not matter to whether they overlap
  refine ((place_perm _ _).pairwise_iff (Std.Symm.symm _ _)).mpr (List.pairwise_cons.mpr ⟨?_, ?_⟩)
  · intro e he
    rw [Span.overlaps_comm]
    exact absorb_apart r set.entries e he
  · exact h.apart.sublist hrest

/-- Entries of a tidy set that overlap are one. -/
theorem Tidy.eq_of_overlaps {set : RangeSet} (h : set.Tidy) {a b : Span} (ha : a ∈ set.entries)
    (hb : b ∈ set.entries) (hoverlaps : a.overlaps b = true) : a = b := by
  by_contra hne
  rw [h.apart.forall ha hb hne] at hoverlaps
  exact nomatch hoverlaps

/-! ### All ranges together -/

/-- **Induction over the ranges that go in.** -/
theorem ofList_elim {motive : List Span → RangeSet → Prop} (nil : motive [] empty)
    (step : ∀ done set r, motive done set → motive (done ++ [r]) (set.insert r))
    (ranges : List Span) : motive ranges (ofList ranges) := by
  have hall : ∀ (later done : List Span) (set : RangeSet), motive done set →
      motive (done ++ later) (set.insertAll later) := by
    intro later
    induction later with
    | nil =>
      intro done set h
      rwa [List.append_nil]
    | cons r later ih =>
      intro done set h
      have hlater := ih (done ++ [r]) (set.insert r) (step done set r h)
      rwa [List.append_assoc] at hlater
  exact hall ranges [] empty nil

/-- **The entries are ordered by start, and no two of them overlap.** -/
theorem tidy_ofList (ranges : List Span) : (ofList ranges).Tidy :=
  ofList_elim (motive := fun _ set => set.Tidy) ⟨.nil, .nil⟩ (fun _ _ r h => tidy_insert h r) ranges

/-- **What is kept by merging holds of every entry.** -/
theorem forall_mem_ofList {p : Span → Prop}
    (hmerge : ∀ a b, p a → p b → a.overlaps b = true → p (a.merge b)) {ranges : List Span}
    (h : ∀ r ∈ ranges, p r) : ∀ e ∈ (ofList ranges).entries, p e := by
  refine ofList_elim (motive := fun done set => (∀ r ∈ done, p r) → ∀ e ∈ set.entries, p e)
    (fun _ => nofun) ?_ ranges h
  intro done set r ih h e he
  obtain ⟨hdone, hr⟩ := List.forall_mem_append.mp h
  have hentries := ih hdone
  rcases mem_insert_iff.mp he with rfl | hrest
  · exact absorb_induct r set.entries (hr r (List.mem_singleton_self r))
      fun x hx s hs hoverlaps => hmerge x s (hentries x hx) hs hoverlaps
  · exact hentries e ((absorbed_absorb r set.entries).rest.subset hrest)

/-- **Every range that goes in lies in some entry.** -/
theorem exists_contains_of_mem {ranges : List Span} {r : Span} (h : r ∈ ranges) :
    ∃ e ∈ (ofList ranges).entries, e.contains r = true := by
  refine ofList_elim (motive := fun done set => ∀ r ∈ done, ∃ e ∈ set.entries, e.contains r = true)
    nofun ?_ ranges r h
  intro done set new ih r hr
  have habsorbed := absorbed_absorb new set.entries
  rcases List.mem_append.mp hr with hdone | hnew
  · obtain ⟨e, he, hcontains⟩ := ih r hdone
    -- the entry that held the range is still there, or it has been absorbed
    rcases habsorbed.covers e he with hrest | hgrown
    · exact ⟨e, mem_insert_iff.mpr (.inr hrest), hcontains⟩
    · exact ⟨_, mem_insert_iff.mpr (.inl rfl), Span.contains_trans hgrown hcontains⟩
  · obtain rfl := List.mem_singleton.mp hnew
    exact ⟨_, mem_insert_iff.mpr (.inl rfl), habsorbed.grown⟩

/-- Whether a range lies in some entry. -/
def Holds (set : RangeSet) (r : Span) : Prop := ∃ e ∈ set.entries, e.contains r = true

/-- **What holds the ranges that go in holds what they are merged to.** -/
theorem holds_of_forall {set : RangeSet} (hset : set.Tidy) {ranges : List Span}
    (h : ∀ r ∈ ranges, set.Holds r) : ∀ e ∈ (ofList ranges).entries, set.Holds e := by
  refine forall_mem_ofList ?_ h
  rintro a b ⟨a', ha', haa⟩ ⟨b', hb', hbb⟩ hoverlaps
  -- the entries that hold the two overlap as well, and so they are the same
  obtain rfl := hset.eq_of_overlaps ha' hb' (Span.overlaps_of_contains haa hbb hoverlaps)
  exact ⟨a', ha', Span.contains_merge haa hbb⟩

/-- **With more ranges the entries only grow.** -/
theorem contains_of_subset {ranges more : List Span} (h : ranges ⊆ more) :
    ∀ e ∈ (ofList ranges).entries, ∃ e' ∈ (ofList more).entries, e'.contains e = true :=
  holds_of_forall (tidy_ofList more) fun _ hr => exists_contains_of_mem (h hr)

/-! ### Ranges that are not inverted -/

/-- Proper ranges make a set of proper ranges. -/
theorem proper_ofList {ranges : List Span} (h : ∀ r ∈ ranges, r.start ≤ r.stop) :
    ∀ e ∈ (ofList ranges).entries, e.start ≤ e.stop := by
  refine forall_mem_ofList ?_ h
  intro a b ha _ _
  rw [Span.merge_start, Span.merge_stop]
  omega

/-- **Each entry ends before the next one begins,** if no range is inverted. -/
theorem stop_lt_start {ranges : List Span} (h : ∀ r ∈ ranges, r.start ≤ r.stop) :
    (ofList ranges).entries.Pairwise fun a b => a.stop < b.start := by
  have htidy := tidy_ofList ranges
  refine (htidy.sorted.and htidy.apart).imp_of_mem ?_
  rintro a b - hb ⟨hsorted, hapart⟩
  have hb := proper_ofList h b hb
  by_contra hlt
  rw [(Span.overlaps_iff a b).mpr ⟨by omega, by omega⟩] at hapart
  exact nomatch hapart

/-- An entry that is held where its holder is held in turn has not grown on the way. -/
theorem mem_of_holds {xs ys : List Span} (hproper : ∀ r ∈ xs, r.start ≤ r.stop)
    (hxs : ∀ r ∈ xs, (ofList ys).Holds r) (hys : ∀ r ∈ ys, (ofList xs).Holds r) :
    ∀ e ∈ (ofList xs).entries, e ∈ (ofList ys).entries := by
  intro e he
  obtain ⟨e', he', hcontains⟩ := holds_of_forall (tidy_ofList ys) hxs e he
  obtain ⟨e'', he'', hcontains'⟩ := holds_of_forall (tidy_ofList xs) hys e' he'
  -- what holds the holder is an entry that overlaps the one at hand, so it is that one
  have hoverlaps : e''.overlaps e = true :=
    Span.overlaps_of_contains (Span.contains_trans hcontains' hcontains) (Span.contains_refl e)
      (Span.overlaps_self (proper_ofList hproper e he))
  obtain rfl := (tidy_ofList xs).eq_of_overlaps he'' he hoverlaps
  obtain rfl := Span.contains_antisymm hcontains hcontains'
  exact he'

/-- **Sets that hold each other's ranges are equal.** -/
theorem ofList_eq_of_holds {xs ys : List Span} (hproper : ∀ r ∈ xs, r.start ≤ r.stop)
    (hproper' : ∀ r ∈ ys, r.start ≤ r.stop) (hxs : ∀ r ∈ xs, (ofList ys).Holds r)
    (hys : ∀ r ∈ ys, (ofList xs).Holds r) : ofList xs = ofList ys := by
  have hmem : ∀ e, e ∈ (ofList xs).entries ↔ e ∈ (ofList ys).entries :=
    fun e => ⟨mem_of_holds hproper hxs hys e, mem_of_holds hproper' hys hxs e⟩
  -- no two entries of a set start at the same place, so their order is given by what they are
  have hordered : ∀ {ranges : List Span}, (∀ r ∈ ranges, r.start ≤ r.stop) →
      (ofList ranges).entries.Pairwise (InvImage (· < ·) Span.start) := by
    intro ranges h
    refine (stop_lt_start h).imp_of_mem ?_
    intro a b ha _ hlt
    exact (proper_ofList h a ha).trans_lt hlt
  have hentries := (hordered hproper).eq_of_mem_iff (hordered hproper') hmem
  exact congrArg mk hentries

end RangeSet

end OperandOrder
