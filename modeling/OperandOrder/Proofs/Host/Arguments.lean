import Mathlib.Data.List.Basic
import OperandOrder.Proofs.Host.RangeText

/-!
# Arguments in any order

`Options.read_exact` says what a list of arguments means, without going through it. Reading fails
exactly if some argument is refused, and the leftmost one is reported. If none is, every setting has
the value of its last flag, then that of the environment, then the standard one. So the order of the
arguments is of no account, but for that of several occurrences of one flag.

Arguments are read one after the other, and each changes the settings that were reached. `reached`
is what the arguments so far say, as a function of the whole list, and the step is that one more
argument takes the settings reached before it to those reached with it (`add_reached`), or is
refused (`add_reached_of_refused`). Whether an argument is refused depends on the arguments before
it in one case only, that of a second path. The runs are built from the end (`admitted_concat`), as
the settings are.

For the order it is enough to say both things without it. That no argument is refused means that
each is fine by itself and that there is one path at most (`admitted_iff`), and what is reached is
made of the occurrences of each flag, the first path, and whether an argument is there.
-/

namespace OperandOrder

namespace Argument

/-! ### Flags -/

/-- An argument that begins with a text. -/
def Begins (lead arg : String) : Prop := lead.toList <+: arg.toList

instance (lead arg : String) : Decidable (Begins lead arg) :=
  inferInstanceAs (Decidable (lead.toList <+: arg.toList))

/-- The texts that a flag with a value begins with. -/
def leads : List String := ["--right-literal=", "--both-literals=", "--range="]

/-- What an argument says behind its flag. -/
def valueOf (lead arg : String) : String := String.ofList (arg.toList.drop lead.toList.length)

/-- The occurrences of a flag, in order. -/
def occurrences (lead : String) (args : List String) : List String :=
  args.filter fun arg => Begins lead arg

/-- **The values that a flag is given,** in order. -/
def values (lead : String) (args : List String) : List String :=
  (occurrences lead args).map (valueOf lead)

/-- An argument that is a path. -/
def isPath (arg : String) : Bool := !decide (Begins "-" arg)

/-- What is behind a lead, if the text has it. -/
theorem after?_eq (lead text : List Char) :
    after? lead text = if lead <+: text then some (text.drop lead.length) else none := by
  induction lead generalizing text with
  | nil => simp [after?]
  | cons l lead ih =>
    cases text with
    | nil => simp [after?]
    | cons c text =>
      rw [after?, ih]
      by_cases hc : l = c
      · simp [hc]
      · simp [hc]

/-- Flags do not overlap: an argument begins with one of them at most. -/
theorem Begins.unique {lead lead' arg : String} (h : Begins lead arg) (h' : Begins lead' arg)
    (hlead : lead ∈ leads) (hlead' : lead' ∈ leads) : lead = lead' := by
  have hapart : ∀ a ∈ leads, ∀ b ∈ leads, a.toList <+: b.toList → a = b := by decide
  rcases List.prefix_or_prefix_of_prefix h h' with hshort | hshort
  · exact hapart lead hlead lead' hlead' hshort
  · exact (hapart lead' hlead' lead hlead hshort).symm

/-- A flag begins like an option. -/
theorem Begins.dash {lead arg : String} (h : Begins lead arg) (hlead : lead ∈ leads) :
    Begins "-" arg := by
  have hdash : ∀ a ∈ leads, "-".toList <+: a.toList := by decide
  exact (hdash lead hlead).trans h

theorem Begins.not_begins {lead lead' arg : String} (h : Begins lead arg) (hlead : lead ∈ leads)
    (hlead' : lead' ∈ leads) (hne : lead ≠ lead') : ¬Begins lead' arg :=
  fun h' => hne (h.unique h' hlead hlead')

theorem Begins.isPath_eq {lead arg : String} (h : Begins lead arg) (hlead : lead ∈ leads) :
    isPath arg = false := by
  simp [isPath, h.dash hlead]

theorem Begins.ne_json {lead arg : String} (h : Begins lead arg) (hlead : lead ∈ leads) :
    arg ≠ "--json" := by
  have hjson : ∀ a ∈ leads, ¬Begins a "--json" := by decide
  rintro rfl
  exact hjson lead hlead h

/-- One more argument gives one more value, if it is of the flag. -/
theorem values_concat (lead : String) (args : List String) (arg : String) :
    values lead (args ++ [arg]) =
      values lead args ++ if Begins lead arg then [valueOf lead arg] else [] := by
  by_cases h : Begins lead arg
  · simp [values, occurrences, h]
  · simp [values, occurrences, h]

/-- The last value of a flag, with one more argument. -/
theorem getLast?_values_concat (lead : String) (args : List String) (arg : String) :
    (values lead (args ++ [arg])).getLast? =
      if Begins lead arg then some (valueOf lead arg) else (values lead args).getLast? := by
  rw [values_concat]
  by_cases h : Begins lead arg
  · rw [if_pos h, if_pos h, List.getLast?_concat]
  · rw [if_neg h, if_neg h, List.append_nil]

/-! ### What an argument asks for -/

/-- **What an argument asks for,** told by how it begins. -/
inductive Asks (arg : String) : Argument → Prop
  | rightLiterals (h : Begins "--right-literal=" arg) :
    Asks arg (.rightLiterals (valueOf "--right-literal=" arg))
  | bothLiterals (h : Begins "--both-literals=" arg) :
    Asks arg (.bothLiterals (valueOf "--both-literals=" arg))
  | range (h : Begins "--range=" arg) : Asks arg (.range (valueOf "--range=" arg))
  | json (h : arg = "--json") : Asks arg .json
  | unknown (hdash : Begins "-" arg) (hjson : arg ≠ "--json")
    (hflags : ∀ lead ∈ leads, ¬Begins lead arg) : Asks arg .unknown
  | path (h : ¬Begins "-" arg) : Asks arg .path

/-- The flags with a value are tried one after the other. -/
theorem ofValueFlag?_eq (arg : String) :
    ofValueFlag? arg =
      if Begins "--right-literal=" arg then some (.rightLiterals (valueOf "--right-literal=" arg))
      else if Begins "--both-literals=" arg then some
        (.bothLiterals (valueOf "--both-literals=" arg))
      else if Begins "--range=" arg then some (.range (valueOf "--range=" arg))
      else none := by
  have htry : ∀ (lead : String) (make : String → Argument),
      ((after? lead.toList arg.toList).map fun value => make (String.ofList value)) =
        if Begins lead arg then some (make (valueOf lead arg)) else none := by
    intro lead make
    rw [after?_eq, Option.map_if]
    rfl
  -- the flags with a value are tried in the order of the table
  simp only [ofValueFlag?, valueFlags, List.findSome?_cons, List.findSome?_nil, htry]
  by_cases hright : Begins "--right-literal=" arg
  · rw [if_pos hright, if_pos hright]
  rw [if_neg hright, if_neg hright]
  by_cases hboth : Begins "--both-literals=" arg
  · rw [if_pos hboth, if_pos hboth]
  rw [if_neg hboth, if_neg hboth]
  by_cases hrange : Begins "--range=" arg
  · rw [if_pos hrange]
  · rw [if_neg hrange]

theorem begins_dash_iff (arg : String) : Begins "-" arg ↔ arg.toList.head? = some '-' := by
  change ['-'] <+: arg.toList ↔ _
  cases arg.toList with
  | nil => simp
  | cons c cs => simp [eq_comm]

/-- **Every argument asks for one thing.** -/
theorem asks_ofString (arg : String) : Asks arg (ofString arg) := by
  rw [ofString, ofValueFlag?_eq]
  by_cases hright : Begins "--right-literal=" arg
  · rw [if_pos hright]
    exact .rightLiterals hright
  rw [if_neg hright]
  by_cases hboth : Begins "--both-literals=" arg
  · rw [if_pos hboth]
    exact .bothLiterals hboth
  rw [if_neg hboth]
  by_cases hrange : Begins "--range=" arg
  · rw [if_pos hrange]
    exact .range hrange
  rw [if_neg hrange]
  -- without a value it is the switch, something else with a dash, or a path
  change Asks arg
    (if arg = "--json" then .json else if arg.toList.head? = some '-' then .unknown else .path)
  by_cases hjson : arg = "--json"
  · rw [if_pos hjson]
    exact .json hjson
  rw [if_neg hjson]
  by_cases hdash : Begins "-" arg
  · rw [if_pos ((begins_dash_iff arg).mp hdash)]
    refine .unknown hdash hjson ?_
    simp [leads, hright, hboth, hrange]
  · rw [if_neg (mt (begins_dash_iff arg).mpr hdash)]
    exact .path hdash

/-- What an argument asks for is settled by how it begins. -/
theorem ofString_of_asks {arg : String} {asked : Argument} (h : Asks arg asked) :
    ofString arg = asked := by
  -- past the flags with a value, the other two tests are left
  have hrest : (∀ lead ∈ leads, ¬Begins lead arg) → ofString arg =
      if arg = "--json" then .json else if arg.toList.head? =
        some '-' then .unknown else .path := by
    intro hflags
    rw [ofString, ofValueFlag?_eq, if_neg (hflags _ (by decide)), if_neg (hflags _ (by decide)),
      if_neg (hflags _ (by decide))]
  cases h with
  | rightLiterals h => rw [ofString, ofValueFlag?_eq, if_pos h]
  | bothLiterals h =>
    have hright := h.not_begins (by decide) (by decide) (by decide : _ ≠ "--right-literal=")
    rw [ofString, ofValueFlag?_eq, if_neg hright, if_pos h]
  | range h =>
    have hright := h.not_begins (by decide) (by decide) (by decide : _ ≠ "--right-literal=")
    have hboth := h.not_begins (by decide) (by decide) (by decide : _ ≠ "--both-literals=")
    rw [ofString, ofValueFlag?_eq, if_neg hright, if_neg hboth, if_pos h]
  | json h =>
    subst h
    rw [hrest (by decide), if_pos rfl]
  | unknown hdash hjson hflags =>
    rw [hrest hflags, if_neg hjson, if_pos ((begins_dash_iff arg).mp hdash)]
  | path h =>
    have hjson : arg ≠ "--json" := by
      rintro rfl
      exact h (by decide)
    rw [hrest fun lead hlead hflag => h (hflag.dash hlead), if_neg hjson,
      if_neg (mt (begins_dash_iff arg).mpr h)]

/-! ### Refusals -/

/-- **An argument that is refused** behind the given ones, with the failure that is reported. -/
inductive Refused (before : List String) (arg : String) : Failure → Prop
  | unknown (hdash : Begins "-" arg) (hjson : arg ≠ "--json")
    (hflags : ∀ lead ∈ leads, ¬Begins lead arg) : Refused before arg (.unknownOption arg)
  | range (hflag : Begins "--range=" arg)
    (hbad : ∀ range, readRange (valueOf "--range=" arg) ≠ .ok range) :
    Refused before arg (.badRange (valueOf "--range=" arg))
  /-- A path is there already. -/
  | path (hpath : isPath arg = true) (hearlier : ∃ earlier ∈ before, isPath earlier = true) :
    Refused before arg (.unexpectedArgument arg)

/-- **Arguments none of which is refused** behind those in front of it. -/
def Admitted (args : List String) : Prop :=
  ∀ before arg after, args = before ++ arg :: after → ∀ failure, ¬Refused before arg failure

theorem admitted_nil : Admitted [] := by
  intro before arg after h
  exact absurd h.symm (List.append_ne_nil_of_right_ne_nil before (List.cons_ne_nil arg after))

/-- **Arguments are admitted one by one:** the last one is not refused where it stands. -/
theorem admitted_concat {args : List String} {arg : String} :
    Admitted (args ++ [arg]) ↔ Admitted args ∧ ∀ failure, ¬Refused args arg failure := by
  constructor
  · intro h
    refine ⟨?_, h args arg [] rfl⟩
    rintro before first after rfl
    exact h before first (after ++ [arg]) (by simp)
  · rintro ⟨hargs, harg⟩ before first after hsplit
    -- the argument in question is the last one, or it is one of those before
    rcases List.eq_nil_or_concat after with rfl | ⟨middle, last, rfl⟩
    · obtain ⟨rfl, hfirst⟩ := List.append_inj' hsplit rfl
      obtain rfl := List.singleton_inj.mp hfirst
      exact harg
    · refine hargs before first middle ?_
      rw [List.concat_eq_append, ← List.cons_append, ← List.append_assoc] at hsplit
      exact (List.append_inj' hsplit rfl).1

/-- **Where an argument is refused, there is a leftmost one.** -/
theorem exists_leftmost {args : List String} (h : ¬Admitted args) :
    ∃ before arg after failure, args = before ++ arg :: after ∧ Refused before arg failure ∧
      Admitted before := by
  -- from the end: a refusal further to the left is found first
  induction args using List.reverseRecOn with
  | nil => exact absurd admitted_nil h
  | append_singleton args last ih =>
    by_cases hargs : Admitted args
    · rw [admitted_concat, not_and] at h
      obtain ⟨failure, hrefused⟩ := not_forall_not.mp (h hargs)
      exact ⟨args, last, [], failure, rfl, hrefused, hargs⟩
    · obtain ⟨before, arg, after, failure, rfl, hrefused, hbefore⟩ := ih hargs
      exact ⟨before, arg, after ++ [last], failure, by simp, hrefused, hbefore⟩

/-- Only a second path is refused for what stands before it. -/
theorem refused_iff {before : List String} {arg : String} {failure : Failure} :
    Refused before arg failure ↔ Refused [] arg failure ∨
      failure = .unexpectedArgument arg ∧ isPath arg = true ∧ ∃ earlier ∈ before,
        isPath earlier = true := by
  constructor
  · intro h
    cases h with
    | unknown hdash hjson hflags => exact .inl (.unknown hdash hjson hflags)
    | range hflag hbad => exact .inl (.range hflag hbad)
    | path hpath hearlier => exact .inr ⟨rfl, hpath, hearlier⟩
  · rintro (h | ⟨rfl, hpath, hearlier⟩)
    · cases h with
      | unknown hdash hjson hflags => exact .unknown hdash hjson hflags
      | range hflag hbad => exact .range hflag hbad
      | path _ hearlier => exact absurd hearlier (by simp)
    · exact .path hpath hearlier

/-- Where an argument stands matters only to paths, of which there may be one. -/
theorem not_refused_iff {before : List String} {arg : String} :
    (∀ failure, ¬Refused before arg failure) ↔ (∀ failure, ¬Refused [] arg failure) ∧
      (isPath arg = true → before.filter isPath = []) := by
  constructor
  · intro h
    refine ⟨fun failure hrefused => h failure (refused_iff.mpr (.inl hrefused)), ?_⟩
    intro hpath
    rw [List.filter_eq_nil_iff]
    intro earlier hmem hearlier
    exact h _ (.path hpath ⟨earlier, hmem, hearlier⟩)
  · rintro ⟨halone, hfirst⟩ failure hrefused
    rcases refused_iff.mp hrefused with hrefused | ⟨-, hpath, earlier, hmem, hearlier⟩
    · exact halone failure hrefused
    · exact List.filter_eq_nil_iff.mp (hfirst hpath) earlier hmem hearlier

/-- **What is admitted, without the order:** each argument is fine by itself, and there is one path
at most. -/
theorem admitted_iff {args : List String} :
    Admitted args ↔ (∀ arg ∈ args, ∀ failure, ¬Refused [] arg failure) ∧
      (args.filter isPath).length ≤ 1 := by
  induction args using List.reverseRecOn with
  | nil => exact iff_of_true admitted_nil ⟨nofun, Nat.zero_le 1⟩
  | append_singleton args arg ih =>
    rw [admitted_concat, ih, not_refused_iff, List.forall_mem_append, List.forall_mem_singleton,
      List.filter_append, List.length_append, ← List.length_eq_zero_iff]
    -- a path is counted if it comes last, and then there was none before
    cases hpath : isPath arg with
    | false =>
      simp only [List.filter_singleton, hpath, Bool.false_eq_true, false_implies, and_true,
        cond_false, List.length_nil, Nat.add_zero]
      tauto
    | true =>
      simp only [List.filter_singleton, hpath, true_implies, cond_true, List.length_singleton]
      have hcount : (args.filter isPath).length ≤ 1 ∧ (args.filter isPath).length = 0 ↔
          (args.filter isPath).length + 1 ≤ 1 := by omega
      rw [← hcount]
      tauto

end Argument

namespace Settings

open Argument

/-! ### What the arguments say -/

/-- **What arguments say,** on top of an environment. -/
def reached (env : String → Option String) (args : List String) : Settings where
  path := args.find? isPath
  rightLiterals :=
    ((values "--right-literal=" args).getLast?.or (env Options.rightLiteralsVariable)).map .ofName
  bothLiterals :=
    ((values "--both-literals=" args).getLast?.or (env Options.bothLiteralsVariable)).map .ofName
  range := (values "--range=" args).getLast?.bind Span.ofText?
  json := "--json" ∈ args

variable {env : String → Option String} {args : List String} {arg : String}

/-- One more argument has a say in the setting that it is about. -/
theorem reached_concat : reached env (args ++ [arg]) =
    { path := (args.find? isPath).or (if isPath arg then some arg else none)
      rightLiterals := if Begins "--right-literal=" arg then
          some (.ofName (valueOf "--right-literal=" arg)) else (reached env args).rightLiterals
      bothLiterals := if Begins "--both-literals=" arg then
          some (.ofName (valueOf "--both-literals=" arg)) else (reached env args).bothLiterals
      range := if Begins "--range=" arg then
          Span.ofText? (valueOf "--range=" arg) else (reached env args).range
      json := (reached env args).json || decide (arg = "--json") } := by
  have hpath : (args ++ [arg]).find? isPath =
      (args.find? isPath).or (if isPath arg then some arg else none) := by
    rw [List.find?_append, List.find?_singleton]
  have hjson : decide ("--json" ∈ args ++ [arg]) =
      (decide ("--json" ∈ args) || decide (arg = "--json")) := by
    simp [eq_comm]
  simp only [reached, hpath, hjson, getLast?_values_concat]
  -- each setting looks at its own flag alone
  congr 1
  · split
    next => rw [Option.some_or, Option.map_some]
    next => rfl
  · split
    next => rw [Option.some_or, Option.map_some]
    next => rfl
  · split
    next => rw [Option.bind_some]
    next => rfl

/-- A flag with a value has a say in its own setting alone. -/
theorem reached_concat_of_flag {lead : String} (h : Begins lead arg) (hlead : lead ∈ leads) :
    reached env (args ++ [arg]) =
      { reached env args with
        rightLiterals := if lead = "--right-literal=" then
            some (.ofName (valueOf "--right-literal=" arg)) else (reached env args).rightLiterals
        bothLiterals := if lead = "--both-literals=" then
            some (.ofName (valueOf "--both-literals=" arg)) else (reached env args).bothLiterals
        range := if lead = "--range=" then
            Span.ofText? (valueOf "--range=" arg) else (reached env args).range } := by
  have hbegins : ∀ lead' ∈ leads, (Begins lead' arg ↔ lead = lead') := by
    intro lead' hlead'
    exact ⟨fun h' => h.unique h' hlead hlead', fun hsame => hsame ▸ h⟩
  rw [reached_concat, h.isPath_eq hlead, decide_eq_false (h.ne_json hlead), Bool.or_false,
    if_neg Bool.false_ne_true, Option.or_none]
  simp only [hbegins _ (by decide : "--right-literal=" ∈ leads),
    hbegins _ (by decide : "--both-literals=" ∈ leads), hbegins _ (by decide : "--range=" ∈ leads)]
  rfl

/-- An argument that is no flag with a value leaves the settings of those alone. -/
theorem reached_concat_of_noFlag (h : ∀ lead ∈ leads, ¬Begins lead arg) :
    reached env (args ++ [arg]) = { reached env args with
      path := (args.find? isPath).or (if isPath arg then some arg else none)
      json := (reached env args).json || decide (arg = "--json") } := by
  rw [reached_concat, if_neg (h "--right-literal=" (by decide)),
    if_neg (h "--both-literals=" (by decide)), if_neg (h "--range=" (by decide))]

/-- Before a path that is not refused there is none. -/
theorem find?_isPath_eq_none (h : ∀ failure, ¬Refused args arg failure)
    (hpath : isPath arg = true) : args.find? isPath = none := by
  rw [List.find?_eq_none]
  intro earlier hmem hearlier
  exact h _ (.path hpath ⟨earlier, hmem, hearlier⟩)

/-- **An argument that is not refused** takes the settings to those with one more argument. -/
theorem add_reached (h : ∀ failure, ¬Refused args arg failure) :
    (reached env args).add arg = .ok (reached env (args ++ [arg])) := by
  have hasks := asks_ofString arg
  rw [Settings.add]
  generalize ofString arg = asked at hasks
  cases hasks with
  | rightLiterals hflag =>
    rw [reached_concat_of_flag hflag (by decide), if_pos rfl, if_neg (by decide),
      if_neg (by decide)]
  | bothLiterals hflag =>
    rw [reached_concat_of_flag hflag (by decide), if_neg (by decide), if_pos rfl,
      if_neg (by decide)]
  | range hflag =>
    -- a text that is no range would have been refused
    obtain ⟨range, hread⟩ : ∃ range, readRange (valueOf "--range=" arg) = .ok range := by
      by_contra hbad
      exact h _ (.range hflag (not_exists.mp hbad))
    rw [reached_concat_of_flag hflag (by decide), if_neg (by decide), if_neg (by decide),
      if_pos rfl, readRange_eq_ok_iff.mp hread]
    simp only [hread]
    rfl
  | json hjson =>
    subst hjson
    have hflags : ∀ lead ∈ leads, ¬Begins lead "--json" := by decide
    have hpath : isPath "--json" = false := by decide
    rw [reached_concat_of_noFlag hflags, hpath, decide_eq_true rfl, Bool.or_true,
      if_neg Bool.false_ne_true, Option.or_none]
    rfl
  | unknown hdash hjson hflags => exact absurd (.unknown hdash hjson hflags) (h _)
  | path hplain =>
    have hpath : isPath arg = true := by simp [isPath, hplain]
    have hflags : ∀ lead ∈ leads, ¬Begins lead arg :=
      fun lead hlead hflag => hplain (hflag.dash hlead)
    have hjson : arg ≠ "--json" := by
      rintro rfl
      exact hplain (by decide)
    -- there is no path yet, so this one is taken
    have hnone : (reached env args).path = none := find?_isPath_eq_none h hpath
    rw [reached_concat_of_noFlag hflags, hpath, decide_eq_false hjson, Bool.or_false,
      if_pos rfl, find?_isPath_eq_none h hpath, Option.none_or]
    simp only [hnone]

/-- **An argument that is refused** stops the reading with its failure. -/
theorem add_reached_of_refused {failure : Failure} (h : Refused args arg failure) :
    (reached env args).add arg = .error failure := by
  rw [Settings.add]
  cases h with
  | unknown hdash hjson hflags => rw [ofString_of_asks (.unknown hdash hjson hflags)]
  | range hflag hbad =>
    rw [ofString_of_asks (.range hflag)]
    simp only [readRange_eq_error hbad]
    rfl
  | path hpath hearlier =>
    have hplain : ¬Begins "-" arg := by simpa [isPath] using hpath
    obtain ⟨earlier, hmem, hearlier⟩ := hearlier
    obtain ⟨first, hfirst⟩ := Option.isSome_iff_exists.mp
      (List.find?_isSome.mpr ⟨earlier, hmem, hearlier⟩)
    have hsome : (reached env args).path = some first := hfirst
    rw [ofString_of_asks (.path hplain)]
    simp only [hsome]

/-- Arguments are taken into account piece by piece. -/
theorem addAll_append (s : Settings) (front back : List String) :
    s.addAll (front ++ back) = (s.addAll front).bind fun s => s.addAll back := by
  induction front generalizing s with
  | nil => rfl
  | cons arg front ih =>
    rw [List.cons_append, addAll, addAll]
    cases s.add arg with
    | error failure => rfl
    | ok s => exact ih s

/-- **A run over arguments none of which is refused.** -/
theorem addAll_of_admitted (h : Admitted args) :
    (Options.environment env).addAll args = .ok (reached env args) := by
  induction args using List.reverseRecOn with
  | nil => rfl
  | append_singleton args arg ih =>
    obtain ⟨hargs, harg⟩ := admitted_concat.mp h
    rw [addAll_append, ih hargs]
    change (reached env args).addAll [arg] = _
    rw [addAll, add_reached harg]
    rfl

/-- **A run up to the leftmost argument that is refused.** -/
theorem addAll_of_refused {failure : Failure} (hbefore : Admitted args)
    (h : Refused args arg failure) (after : List String) :
    (Options.environment env).addAll (args ++ arg :: after) = .error failure := by
  rw [addAll_append, addAll_of_admitted hbefore]
  change (reached env args).addAll (arg :: after) = _
  rw [addAll, add_reached_of_refused h]

/-! ### Other orders -/

/-- The first path is the same in any order, if there is only one. -/
theorem find?_isPath_perm {args' : List String} (h : args.Perm args')
    (hone : (args.filter isPath).length ≤ 1) : args.find? isPath = args'.find? isPath := by
  -- the paths are the same but for their order, and one path has only one order
  have hpaths : (args.filter isPath).Perm (args'.filter isPath) := h.filter _
  rw [← List.head?_filter, ← List.head?_filter]
  cases hargs : args.filter isPath with
  | nil =>
    rw [hargs] at hpaths
    rw [List.nil_perm.mp hpaths]
  | cons path paths =>
    rw [hargs] at hpaths hone
    obtain rfl : paths = [] :=
      List.length_eq_zero_iff.mp (Nat.le_zero.mp (Nat.le_of_succ_le_succ hone))
    rw [List.singleton_perm.mp hpaths]

/-- **What arguments say is the same in any order** that keeps the occurrences of each flag. -/
theorem reached_perm {args' : List String} (h : args.Perm args') (hadmitted : Admitted args)
    (hflags : ∀ lead ∈ leads, occurrences lead args = occurrences lead args') :
    reached env args = reached env args' := by
  have hvalues : ∀ lead ∈ leads, values lead args = values lead args' := by
    intro lead hlead
    rw [values, hflags lead hlead, values]
  have hjson : decide ("--json" ∈ args) = decide ("--json" ∈ args') := by
    rw [decide_eq_decide]
    exact h.mem_iff
  rw [reached, reached, find?_isPath_perm h (admitted_iff.mp hadmitted).2, hvalues _ (by decide),
    hvalues _ (by decide), hvalues _ (by decide), hjson]

end Settings

open Argument Settings

/-- **Arguments are admitted in any order.** -/
theorem Argument.Admitted.perm {args args' : List String} (h : Admitted args)
    (hperm : args.Perm args') : Admitted args' := by
  rw [admitted_iff] at h ⊢
  obtain ⟨halone, hone⟩ := h
  refine ⟨fun arg harg => halone arg (hperm.mem_iff.mpr harg), ?_⟩
  rwa [← (hperm.filter _).length_eq]

namespace Options

variable (env : String → Option String)

theorem read_of_admitted {args : List String} (h : Admitted args) :
    read env args = .ok (reached env args).toOptions := by
  rw [read, addAll_of_admitted h]

theorem read_of_refused {args : List String} (hargs : Admitted args) {arg : String}
    {failure : Failure} (h : Refused args arg failure) (after : List String) :
    read env (args ++ arg :: after) = .error failure := by
  rw [read, addAll_of_refused hargs h]

/-- **Reading answers in one of two ways.** -/
theorem read_eq_ok_iff {args : List String} {options : Options} :
    read env args = .ok options ↔ Admitted args ∧ options = (reached env args).toOptions := by
  by_cases h : Admitted args
  · rw [read_of_admitted env h, Except.ok.injEq, eq_comm]
    exact (and_iff_right h).symm
  · obtain ⟨before, arg, after, failure, rfl, hrefused, hbefore⟩ := exists_leftmost h
    rw [read_of_refused env hbefore hrefused]
    exact iff_of_false nofun fun hadmitted => h hadmitted.1

/-- **The first refusal counts:** what stands before it is admitted, and what stands behind it is
not looked at. -/
theorem read_eq_error_iff {args : List String} {failure : Failure} :
    read env args = .error failure ↔ ∃ before arg after, args = before ++ arg :: after ∧
      Refused before arg failure ∧ Admitted before := by
  constructor
  · intro h
    have hrefused : ¬Admitted args := by
      intro hadmitted
      rw [read_of_admitted env hadmitted] at h
      exact nomatch h
    obtain ⟨before, arg, after, reported, rfl, hrefused, hbefore⟩ := exists_leftmost hrefused
    rw [read_of_refused env hbefore hrefused] at h
    obtain rfl := Except.error.inj h
    exact ⟨before, arg, after, rfl, hrefused, hbefore⟩
  · rintro ⟨before, arg, after, rfl, hrefused, hbefore⟩
    exact read_of_refused env hbefore hrefused after

/-- **Reading options.** The leftmost argument that is refused is reported, and only a refused
argument makes it fail; otherwise every setting has the value of its last flag, then that of the
environment, then the standard one; and arguments in another order that keeps the occurrences of
each flag give the same. -/
theorem read_exact (args : List String) :
    (∀ failure, read env args = .error failure ↔ ∃ before arg after, args = before ++ arg :: after ∧
      Refused before arg failure ∧ Admitted before) ∧
    ((∃ failure, read env args = .error failure) ↔ ∃ before arg after failure,
      args = before ++ arg :: after ∧ Refused before arg failure) ∧
    (∀ options, read env args = .ok options →
      options.policy.rightLiterals = (((values "--right-literal=" args).getLast?.or
        (env rightLiteralsVariable)).map .ofName).getD Policy.standard.rightLiterals ∧
      options.policy.bothLiterals = (((values "--both-literals=" args).getLast?.or
        (env bothLiteralsVariable)).map .ofName).getD Policy.standard.bothLiterals ∧
      options.path = args.find? isPath ∧
      options.range = (values "--range=" args).getLast?.bind Span.ofText? ∧
      (options.json = true ↔ "--json" ∈ args)) ∧
    (∀ args', args.Perm args' → (∀ lead ∈ leads, occurrences lead args = occurrences lead args') →
      ∀ options, read env args = .ok options ↔ read env args' = .ok options) := by
  refine ⟨fun failure => read_eq_error_iff env, ?_, ?_, ?_⟩
  · constructor
    · rintro ⟨failure, h⟩
      obtain ⟨before, arg, after, hsplit, hrefused, -⟩ := (read_eq_error_iff env).mp h
      exact ⟨before, arg, after, failure, hsplit, hrefused⟩
    · rintro ⟨before, arg, after, failure, hsplit, hrefused⟩
      -- what is reported is the leftmost refusal, which may be another one
      have hnot : ¬Admitted args :=
        fun hadmitted => hadmitted before arg after hsplit failure hrefused
      obtain ⟨before, arg, after, failure, hsplit, hrefused, hbefore⟩ := exists_leftmost hnot
      exact ⟨failure, (read_eq_error_iff env).mpr ⟨before, arg, after, hsplit, hrefused, hbefore⟩⟩
  · intro options h
    obtain ⟨-, rfl⟩ := (read_eq_ok_iff env).mp h
    exact ⟨rfl, rfl, rfl, rfl, decide_eq_true_iff⟩
  · intro args' hperm hflags options
    rw [read_eq_ok_iff, read_eq_ok_iff]
    constructor
    · rintro ⟨hadmitted, rfl⟩
      exact ⟨hadmitted.perm hperm, by rw [reached_perm hperm hadmitted hflags]⟩
    · rintro ⟨hadmitted, rfl⟩
      have hback := hadmitted.perm hperm.symm
      exact ⟨hback, by rw [reached_perm hperm hback hflags]⟩

/-- An environment that speaks of literals on the right only. -/
def allOnTheRight : String → Option String := fun name =>
  if name = rightLiteralsVariable then some "all" else none

/-- The environment stands in for a flag, the second range counts, and the arguments around them are
shuffled; a refused argument is reported though one behind it would be refused, too. -/
theorem read_exact_shuffled :
    let args := ["--json", "sums.txt", "--both-literals=none", "--range=3..9", "--range=1..2"]
    let shuffled := ["--range=3..9", "--both-literals=none", "--range=1..2", "sums.txt", "--json"]
    args.Perm shuffled ∧ (∀ lead ∈ leads, occurrences lead args = occurrences lead shuffled) ∧
    read allOnTheRight args = .ok ⟨some "sums.txt", ⟨.all, .none⟩, some ⟨1, 2⟩, true⟩ ∧
    read allOnTheRight shuffled = .ok ⟨some "sums.txt", ⟨.all, .none⟩, some ⟨1, 2⟩, true⟩ ∧
    read allOnTheRight ["sums.txt", "--range=2..1", "-json"] = .error (.badRange "2..1") := by
  -- two values of one flag keep their order, and all else may change places
  intro args shuffled
  have hperm : args.Perm shuffled := by decide
  have hflags : ∀ lead ∈ leads, occurrences lead args = occurrences lead shuffled := by decide
  have hread : read allOnTheRight args = .ok ⟨some "sums.txt", ⟨.all, .none⟩, some ⟨1, 2⟩, true⟩ :=
    rfl
  obtain ⟨-, -, -, horder⟩ := read_exact allOnTheRight args
  refine ⟨hperm, hflags, hread, (horder shuffled hperm hflags _).mp hread, ?_⟩
  obtain ⟨hleftmost, -, -, -⟩ := read_exact allOnTheRight ["sums.txt", "--range=2..1", "-json"]
  refine (hleftmost _).mpr ⟨["sums.txt"], "--range=2..1", ["-json"], rfl, ?_, ?_⟩
  · exact .range (by decide) fun range hrange => nomatch hrange
  · -- a reading that succeeds refuses nothing
    have hfirst : read allOnTheRight ["sums.txt"] =
        .ok ⟨some "sums.txt", ⟨.all, .all⟩, none, false⟩ := rfl
    exact ((read_eq_ok_iff allOnTheRight).mp hfirst).1

end Options

end OperandOrder
