import Mathlib.Data.List.Basic
import OperandOrder.NameTable

/-!
# Numbers of names

`NameTable.interning_exact` says what a name table gives out over a run of any length. A text is
numbered by its place among the different texts of the run, in the order in which they appear and
behind the empty text. So two calls get the same number if and only if they ask for the same text,
and a number gives its text back at every later moment.

The two sides of a table, the map to numbers and the sequence of texts, are filled by different
writes. The invariant `Agrees` ties both to the history of the table, which is the list of the texts
that it was asked for: the sequence holds the different texts of the history, and the map is the
inverse of that sequence. One call extends the history by one text (`Agrees.intern`), a run by a
list (`Agrees.internAll`). Only the limit on numbers could break it, which is why there has to be
room for the different texts of the whole run.

A history grows at its end, and so does the sequence of its different texts (`distinct_append`).
Later moments need no more than that: a place, once taken, is taken for good.
-/

namespace OperandOrder

namespace NameTable

/-! ### The different texts of a history -/

/-- **The different texts of a history,** each where it appears first, behind the empty text. -/
def distinct (history : List String) : List String := ("" :: history).eraseDups

theorem distinct_append (history more : List String) :
    distinct (history ++ more) =
      distinct history ++ (more.removeAll ("" :: history)).eraseDups := by
  rw [distinct, ← List.cons_append, List.eraseDups_append, distinct]

theorem mem_distinct {history : List String} {text : String} :
    text ∈ distinct history ↔ text ∈ "" :: history :=
  List.mem_eraseDups

theorem distinct_concat_of_mem {history : List String} {text : String}
    (h : text ∈ distinct history) : distinct (history ++ [text]) = distinct history := by
  have hnone : [text].removeAll ("" :: history) = [] := by
    simpa [List.removeAll, or_iff_not_imp_left] using mem_distinct.mp h
  rw [distinct_append, hnone, List.eraseDups_nil, List.append_nil]

/-- A text that is new is one more distinct text. -/
theorem distinct_concat_of_notMem {history : List String} {text : String}
    (h : text ∉ distinct history) : distinct (history ++ [text]) = distinct history ++ [text] := by
  have hone : [text].removeAll ("" :: history) = [text] := by
    simpa [List.removeAll] using mt mem_distinct.mpr h
  rw [distinct_append, hone]
  rfl

/-- **A place is taken for good,** however the history goes on. -/
theorem place_append {history : List String} {number : Nat} {text : String}
    (h : (distinct history)[number]? = some text) (more : List String) :
    (distinct (history ++ more))[number]? = some text := by
  obtain ⟨hlt, -⟩ := List.getElem?_eq_some_iff.mp h
  rw [distinct_append, List.getElem?_append_left hlt, h]

theorem place_zero (history : List String) : (distinct history)[0]? = some "" :=
  @place_append [] 0 "" rfl history

theorem length_distinct_le (history more : List String) :
    (distinct history).length ≤ (distinct (history ++ more)).length := by
  rw [distinct_append, List.length_append]
  exact Nat.le_add_right _ _

/-! ### The invariant -/

/-- **A table agrees with a history.** -/
structure Agrees (history : List String) (table : NameTable) : Prop where
  /-- The texts are those that are different. -/
  texts : table.texts.toList = distinct history
  /-- The number of a text is its place, and there is a number at every place. -/
  numbers : ∀ (text : String) (number : Nat),
    table.numbers[text]? = some number ↔ (distinct history)[number]? = some text

variable {history : List String} {table : NameTable}

/-- At the start nothing has been seen but the empty name. -/
theorem agrees_start : Agrees [] start where
  texts := by
    rw [start, intern_of_new Std.HashMap.getElem?_empty]
    rfl
  numbers := by
    intro text number
    rw [start, intern_of_new Std.HashMap.getElem?_empty]
    change (Std.HashMap.insert ∅ "" 0)[text]? = some number ↔ [""][number]? = some text
    rw [Std.HashMap.getElem?_insert, Std.HashMap.getElem?_empty]
    grind

theorem Agrees.size_eq (h : Agrees history table) : table.size = (distinct history).length := by
  rw [← h.texts, Array.length_toList]
  rfl

theorem Agrees.lookup_eq (h : Agrees history table) (number : Nat) :
    table.lookup number = (distinct history)[number]?.getD "" := by
  rw [← h.texts, Array.getElem?_toList]
  rfl

/-- No text has two places: the map can hold one of them only. -/
theorem Agrees.place_unique (h : Agrees history table) {text : String} {m n : Nat}
    (hm : (distinct history)[m]? = some text) (hn : (distinct history)[n]? = some text) :
    m = n := by
  have hboth : some m = some n := ((h.numbers text m).mpr hm).symm.trans ((h.numbers text n).mpr hn)
  exact Option.some.inj hboth

/-- **One call** extends the history by its text. -/
theorem Agrees.intern (h : Agrees history table) {text : String}
    (room : (distinct (history ++ [text])).length ≤ Span.limit + 1) :
    Agrees (history ++ [text]) (table.intern text).1 := by
  cases hseen : table.numbers[text]? with
  | some number =>
    -- nothing is written, and nothing new was asked for
    have hmem : text ∈ distinct history := List.mem_of_getElem? ((h.numbers text number).mp hseen)
    rw [intern_of_seen hseen]
    refine ⟨?_, ?_⟩
    · rw [distinct_concat_of_mem hmem]
      exact h.texts
    · rw [distinct_concat_of_mem hmem]
      exact h.numbers
  | none =>
    have hnew : text ∉ distinct history := by
      intro hmem
      obtain ⟨number, hplace⟩ := List.mem_iff_getElem?.mp hmem
      rw [(h.numbers text number).mpr hplace] at hseen
      exact absurd hseen (Option.some_ne_none number)
    rw [distinct_concat_of_notMem hnew, List.length_append] at room
    -- with room for one more, the number that is written is the next place
    have hnext : min table.texts.size Span.limit = (distinct history).length := by
      have hsize : table.texts.size = (distinct history).length := h.size_eq
      rw [hsize]
      exact Nat.min_eq_left (Nat.le_of_succ_le_succ room)
    rw [intern_of_new hseen, hnext]
    refine ⟨?_, ?_⟩
    · rw [distinct_concat_of_notMem hnew, ← h.texts]
      exact Array.toList_push
    · intro other number
      have hold := h.numbers other number
      rw [distinct_concat_of_notMem hnew]
      change (table.numbers.insert text (distinct history).length)[other]? = some number ↔ _
      rw [Std.HashMap.getElem?_insert]
      by_cases hother : text = other
      · subst hother
        -- the text has the last place and no other, since it was not there before
        have hnowhere : (distinct history)[number]? ≠ some text :=
          fun hplace => hnew (List.mem_of_getElem? hplace)
        grind
      · grind

/-- **A run** extends the history by its texts. -/
theorem Agrees.internAll (h : Agrees history table) {texts : List String}
    (room : (distinct (history ++ texts)).length ≤ Span.limit + 1) :
    Agrees (history ++ texts) (table.internAll texts) := by
  induction texts generalizing history table with
  | nil => rwa [List.append_nil]
  | cons text texts ih =>
    rw [List.append_cons] at room ⊢
    have hfirst : (distinct (history ++ [text])).length ≤ Span.limit + 1 :=
      Nat.le_trans (length_distinct_le _ texts) room
    exact ih (h.intern hfirst) room

/-! ### What is given out -/

/-- A number that is given out is found in the map from then on. -/
theorem numbers_intern (table : NameTable) (text : String) :
    (table.intern text).1.numbers[text]? = some (table.intern text).2 := by
  cases hseen : table.numbers[text]? with
  | some number => rw [intern_of_seen hseen, hseen]
  | none =>
    rw [intern_of_new hseen]
    exact Std.HashMap.getElem?_insert_self

/-- The number that a call gives is the place of its text. -/
theorem Agrees.place_intern (h : Agrees history table) {text : String}
    (room : (distinct (history ++ [text])).length ≤ Span.limit + 1) :
    (distinct (history ++ [text]))[(table.intern text).2]? = some text :=
  ((h.intern room).numbers text _).mp (numbers_intern table text)

@[simp] theorem length_handles (table : NameTable) (texts : List String) :
    (table.handles texts).length = texts.length := by
  induction texts generalizing table with
  | nil => rfl
  | cons text texts ih => rw [handles, List.length_cons, ih, List.length_cons]

/-- **The numbers of a run are places:** each call is given the place of its text among the
different texts so far. -/
theorem Agrees.place_handles (h : Agrees history table) {texts : List String}
    (room : (distinct (history ++ texts)).length ≤ Span.limit + 1) {i number : Nat} {text : String}
    (hgiven : (table.handles texts)[i]? = some number) (htext : texts[i]? = some text) :
    (distinct (history ++ texts.take (i + 1)))[number]? = some text := by
  induction texts generalizing history table i with
  | nil => exact nomatch htext
  | cons first texts ih =>
    rw [List.append_cons] at room
    have hfirst : (distinct (history ++ [first])).length ≤ Span.limit + 1 :=
      Nat.le_trans (length_distinct_le _ texts) room
    cases i with
    | zero =>
      obtain rfl : first = text := Option.some.inj htext
      obtain rfl : (table.intern first).2 = number := Option.some.inj hgiven
      exact h.place_intern hfirst
    | succ i =>
      rw [List.take_succ_cons, List.append_cons]
      exact ih (h.intern hfirst) room hgiven htext

/-! ### Runs of a new table -/

section Runs

variable {calls : List String} (room : (distinct calls).length ≤ Span.limit + 1)

include room

/-- At every moment of a run the table agrees with the calls so far. -/
theorem agrees_take (k : Nat) : Agrees (calls.take k) (start.internAll (calls.take k)) := by
  have hroom : (distinct (calls.take k)).length ≤ Span.limit + 1 := by
    refine Nat.le_trans (length_distinct_le _ (calls.drop k)) ?_
    rwa [List.take_append_drop]
  exact agrees_start.internAll hroom

/-- A number that was given for a text has the place of that text at every later moment. -/
theorem place_take {i k number : Nat} {text : String}
    (hgiven : (start.handles calls)[i]? = some number) (htext : calls[i]? = some text)
    (hik : i < k) :
    (distinct (calls.take k))[number]? = some text := by
  have hplace := agrees_start.place_handles room hgiven htext
  obtain ⟨more, hmore⟩ := @List.take_prefix_take_left _ calls _ _ (Nat.succ_le_of_lt hik)
  rw [← hmore]
  exact place_append hplace more

theorem place_calls {i number : Nat} {text : String}
    (hgiven : (start.handles calls)[i]? = some number) (htext : calls[i]? = some text) :
    (distinct calls)[number]? = some text := by
  have hlt : i < calls.length := (List.getElem?_eq_some_iff.mp htext).1
  have hplace := place_take room hgiven htext hlt
  rwa [List.take_length] at hplace

/-- **The numbers of a run,** all at once. -/
theorem handles_eq : start.handles calls = calls.map (fun text => (distinct calls).idxOf text) := by
  refine List.ext_getElem (by simp) ?_
  intro i hgiven hmap
  have hi : i < calls.length := by rwa [length_handles] at hgiven
  have hplace := place_calls room (List.getElem?_eq_getElem hgiven) (List.getElem?_eq_getElem hi)
  have hfirst := List.getElem?_idxOf (List.mem_of_getElem? hplace)
  -- the place of a text is the first one, because there is only one
  have hagrees : Agrees calls (start.internAll calls) := agrees_start.internAll room
  rw [List.getElem_map]
  exact hagrees.place_unique hplace hfirst

/-- **Two calls have the same handle if they have the same text.** -/
theorem handles_eq_iff {i j : Nat} (hi : i < calls.length) (hj : j < calls.length) :
    (start.handles calls)[i]? = (start.handles calls)[j]? ↔ calls[i]? = calls[j]? := by
  constructor
  · intro hequal
    have hgiven : i < (start.handles calls).length := by rwa [length_handles]
    have hnumber := List.getElem?_eq_getElem hgiven
    have hleft := place_calls room hnumber (List.getElem?_eq_getElem hi)
    have hright := place_calls room (hequal.symm.trans hnumber) (List.getElem?_eq_getElem hj)
    rw [List.getElem?_eq_getElem hi, List.getElem?_eq_getElem hj, ← hleft, ← hright]
  · intro hequal
    rw [handles_eq room, List.getElem?_map, List.getElem?_map, hequal]

end Runs

/-- **A run of a new table.** The empty text has number 0, and a text is numbered by its place
among the different texts of the run; calls get equal numbers exactly for equal texts; a number
gives its text back at every later moment; and the size counts the different texts, so that a
number beyond it gives the empty text. There has to be room for the different texts: no more of
them than there are numbers. -/
theorem interning_exact (calls : List String) (room : (distinct calls).length ≤ Span.limit + 1) :
    let given := start.handles calls
    let after := fun k => start.internAll (calls.take k)
    given = calls.map (fun text => (distinct calls).idxOf text) ∧
    (∀ i j, i < calls.length → j < calls.length → (given[i]? = given[j]? ↔ calls[i]? = calls[j]?)) ∧
    (∀ i number text, given[i]? = some number → calls[i]? = some text →
      ∀ k, i < k → (after k).lookup number = text) ∧
    (∀ k, (after k).lookup 0 = "" ∧ ((after k).intern "").2 = 0) ∧
    (∀ k, (after k).size = (distinct (calls.take k)).length) ∧
    (∀ k number, (after k).size ≤ number → (after k).lookup number = "") := by
  intro given after
  refine ⟨handles_eq room, fun i j hi hj => handles_eq_iff room hi hj, ?_, ?_, ?_, ?_⟩
  · -- the number was given before, and later calls only add behind it
    intro i number text hgiven htext k hik
    rw [(agrees_take room k).lookup_eq, place_take room hgiven htext hik]
    rfl
  · intro k
    refine ⟨?_, ?_⟩
    · rw [(agrees_take room k).lookup_eq, place_zero]
      rfl
    · rw [intern_of_seen (((agrees_take room k).numbers "" 0).mpr (place_zero _))]
  · intro k
    exact (agrees_take room k).size_eq
  · intro k number hbeyond
    rw [(agrees_take room k).size_eq] at hbeyond
    rw [(agrees_take room k).lookup_eq, List.getElem?_eq_none hbeyond]
    rfl

/-- Names that come back, and the empty text among them. -/
def repeated : List String := ["total", "count", "total", "", "count"]

/-- Five calls with three texts, the empty one among them. -/
theorem interning_exact_repeated :
    (distinct repeated).length ≤ Span.limit + 1 ∧ start.handles repeated = [1, 2, 1, 0, 2] ∧
    (start.internAll repeated).size = 3 ∧ (start.internAll repeated).lookup 2 = "count" := by
  have hdistinct : distinct repeated = ["", "total", "count"] := by decide
  have room : (distinct repeated).length ≤ Span.limit + 1 := by
    rw [hdistinct]
    decide
  obtain ⟨hgiven, -, hlookup, -, hsize, -⟩ := interning_exact repeated room
  have hnumbers : start.handles repeated = [1, 2, 1, 0, 2] := by
    rw [hgiven, hdistinct]
    decide
  refine ⟨room, hnumbers, ?_, ?_⟩
  · exact (hsize 5).trans (congrArg List.length hdistinct)
  · refine hlookup 1 2 "count" ?_ rfl 5 (by decide)
    rw [hnumbers]
    rfl

end NameTable

end OperandOrder
