import Mathlib.Data.List.DropRight
import OperandOrder.Parser
import OperandOrder.Printer
import OperandOrder.Proofs.Barriers
import OperandOrder.Proofs.NormalForm

/-!
# Where a right-exempt literal comes out

A literal that is exempt on the right stands still in the swap of the first two operands and in the
order by size. It is not a barrier, though: the order of calls asks only whether an operand is
exempt *anywhere*, so a call steps back past it, and the literal moves up.
`Store.right_literal_moved` is the shortest case: in `a * f() * null` the literal is the last
operand, and it comes out in the middle.

Nothing else can move it. So the place where it comes out is known (`Expr.Landed`): it moves up by
as many places as there are calls to pass it (`Expr.callsPassing`), which are the calls in front of
it behind the nearest operand that is exempt anywhere. If nothing else was in front of it, then it
comes out first, and being first it is on the right of nothing: the last look at the first two
operands may put it behind a smaller one. `Expr.LiteralsLand` is what is said of one node, and
`Store.canonical?_right_literals` says it of all nodes of a stored tree.

The proof does not follow the sweeps. Up to the last step the literal is exchanged with calls only,
so the operands that are no calls are divided by it, and the ones in front stay the same
(`Exchanges.divide`). Which calls are in front of it at the end is told by the end: where the order
of calls is settled, there is none between it and the nearest exempt operand
(`pairwise_calls_of_settled`).
-/

namespace OperandOrder

/-! ### What is exchanged with a right-exempt operand -/

/-- Whether an operand is no call. -/
def Operand.noCall {α : Type} (x : Operand α) : Bool := !x.profile.form.isCall

theorem Operand.noCall_iff {α : Type} {x : Operand α} :
    x.noCall = true ↔ x.profile.form.isCall = false := by
  rw [noCall, Bool.not_eq_true']

theorem Form.isCall_of_isLiteral {f : Form} (h : f.isLiteral = true) : f.isCall = false := by
  cases f with
  | literal kind => rfl
  | _ => exact absurd h Bool.false_ne_true

/-- A call is exempt on the right, but not anywhere. -/
theorem Policy.exempts_of_isCall (policy : Policy) (op : BinaryOp) {f : Form}
    (h : f.isCall = true) : policy.exempts op f = false := by
  cases f with
  | call args => simp [exempts, Form.isLiteral, Form.literalKind?]
  | _ => exact absurd h Bool.false_ne_true

section Exchanged

variable {α : Type} {policy : Policy} {op : BinaryOp} {x : Operand α}

/-- What steps back past an operand that is exempt on the right is a call. -/
theorem Policy.Passes.isCall {y : Operand α} (h : policy.Passes op y x)
    (hright : policy.exemptsRight op x.profile.form = true) : y.profile.form.isCall = true := by
  rcases h with hfront | hsinks | houtgrows
  · simp [swapsFront, exemptsPair, hright] at hfront
  · simp only [sinksBack, Bool.and_eq_true] at hsinks
    exact hsinks.1.1.1
  · simp [outgrows, movable, hright] at houtgrows

/-- **The operands that are no calls are divided by a right-exempt one among them,** unless it is
itself exchanged for standing first: the ones before it are the ones that were before it. -/
theorem Exchanges.noCalls_before {run post ys : List (Operand α)}
    (h : Exchanges (fun y z => policy.Passes op y z ∧ y ≠ x) (run ++ x :: post) ys)
    (hx : x.noCall = true) (hright : policy.exemptsRight op x.profile.form = true) :
    ∃ before after, ys = before ++ x :: after ∧
      (before.filter Operand.noCall).Perm (run.filter Operand.noCall) := by
  have hothers := h.filter Operand.noCall
  rw [List.filter_append, List.filter_cons_of_pos hx] at hothers
  -- only a call could step back past `x`
  have hstays : ∀ y z : Operand α, (policy.Passes op y z ∧ y ≠ x) ∧ y.noCall = true ∧
      z.noCall = true → y ≠ x ∧ z ≠ x := by
    rintro y z ⟨⟨hpasses, hy⟩, hynoCall, -⟩
    refine ⟨hy, ?_⟩
    rintro rfl
    simp [Operand.noCall, hpasses.isCall hright] at hynoCall
  obtain ⟨run', post', hread, hrun, -⟩ := hothers.divide hstays
  -- whatever else there is in front of `x` now are calls
  obtain ⟨before, rest, rfl, hbefore, hrest⟩ := List.filter_eq_append_iff.mp hread
  obtain ⟨calls, after, rfl, hcalls, -, -⟩ := List.filter_eq_cons_iff.mp hrest
  refine ⟨before ++ calls, after, by simp, ?_⟩
  rw [List.filter_append, List.filter_eq_nil_iff.mpr hcalls, List.append_nil, hbefore]
  exact hrun.perm

/-- Where calls are settled, none stands before an operand that it could step back past. -/
theorem noCalls_of_settled {before after : List (Operand α)}
    (hsettled : Settled (fun y z => policy.sinksBack op y.profile z.profile) (before ++ x :: after))
    (hfree : ∀ y ∈ before, policy.exempts op y.profile.form = false) (hx : x.noCall = true)
    (hxfree : policy.exempts op x.profile.form = false) : ∀ y ∈ before, y.noCall = true := by
  have hstretch : Settled (fun y z : Operand α => policy.sinksBack op y.profile z.profile)
      (before ++ [x]) :=
    List.IsChain.infix hsettled ⟨[], after, by simp⟩
  have hlast := pairwise_calls_of_settled Operand.profile hstretch
    (List.forall_mem_append.mpr ⟨hfree, List.forall_mem_singleton.mpr hxfree⟩)
  intro y hy
  by_contra hcall
  have hxcall := (List.pairwise_append.mp hlast).2.2 y hy x (List.mem_singleton_self x)
    (by simpa [Operand.noCall] using hcall)
  simp [Operand.noCall, hxcall] at hx

/-- **A right-exempt operand among calls that are settled.** It is no call, `run` is what stood
between it and the nearest exempt operand before it, and it was not exchanged for standing first.
Then all the calls of `run` are behind it, and nothing else has moved past it. -/
theorem Exchanges.lands {xs front run post ys : List (Operand α)}
    (h : Exchanges (fun y z => policy.Passes op y z ∧ y ≠ x) xs ys)
    (hxs : xs = front ++ (run ++ x :: post))
    (hsettled : Settled (fun y z => policy.sinksBack op y.profile z.profile) ys)
    (hfront : ∀ b ∈ front.getLast?, policy.exempts op b.profile.form = true)
    (hrun : ∀ y ∈ run, policy.exempts op y.profile.form = false) (hx : x.noCall = true)
    (hfree : policy.exempts op x.profile.form = false)
    (hright : policy.exemptsRight op x.profile.form = true) :
    ys[front.length + run.countP Operand.noCall]? = some x := by
  -- what ends `front` is a barrier
  have hbarrier : ∀ b ∈ front.getLast?, ∀ y z : Operand α, policy.Passes op y z ∧ y ≠ x →
      y ≠ b ∧ z ≠ b := by
    rintro b hb y z ⟨hpasses, -⟩
    obtain ⟨-, -, hy, hz⟩ := hpasses.cause
    have hexempt := hfront b hb
    exact ⟨fun hyb => by simp [← hyb, hy] at hexempt, fun hzb => by simp [← hzb, hz] at hexempt⟩
  rw [hxs] at h
  obtain ⟨front', behind, rfl, hsame, hbehind⟩ := h.divide_front hbarrier
  obtain ⟨before, after, rfl, hbefore⟩ := hbehind.noCalls_before hx hright
  -- calls are free, and what else is in front of `x` was in `run`
  have hbeforefree : ∀ y ∈ before, policy.exempts op y.profile.form = false := by
    intro y hy
    by_cases hcall : y.profile.form.isCall = true
    · exact policy.exempts_of_isCall op hcall
    · have hmem :=
        hbefore.mem_iff.mp (List.mem_filter.mpr ⟨hy, by simpa [Operand.noCall] using hcall⟩)
      exact hrun y (List.mem_filter.mp hmem).1
  -- so it is free all over, and calls are settled in it
  have hbehindsettled :=
    List.IsChain.infix hsettled (List.suffix_append front' (before ++ x :: after)).isInfix
  have hnone := noCalls_of_settled hbehindsettled hbeforefree hx hfree
  have hlength : before.length = run.countP Operand.noCall := by
    rw [List.countP_eq_length_filter, ← hbefore.length_eq, List.filter_eq_self.mpr hnone]
  rw [← hlength, ← hsame.length_eq, List.getElem?_append_right (Nat.le_add_right _ _),
    Nat.add_sub_cancel_left, List.getElem?_append_right (Nat.le_refl _), Nat.sub_self]
  rfl

end Exchanged

/-! ### The steps -/

namespace Arrangement

variable {α : Type} (policy : Policy) {x : Operand α}

/-- The first swap and the two orders never exchange an operand for standing first, if it
does not. -/
theorem exchanges_sized {op : BinaryOp} {xs : List (Operand α)} (hx : x.noCall = true)
    (hright : policy.exemptsRight op x.profile.form = true) (hfirst : ∀ y ∈ xs.head?, y ≠ x) :
    Exchanges (fun y z => policy.Passes op y z ∧ y ≠ x) xs
      ((swapFront policy ⟨op, xs, false⟩).sized policy).operands := by
  set front := swapFront policy ⟨op, xs, false⟩ with hfront
  -- what the first swap exchanges for standing first is the first operand, and that is not `x`
  have hstart : Exchanges (fun y z => policy.Passes op y z ∧ y ≠ x) xs front.operands := by
    rcases swapFront_cases policy ⟨op, xs, false⟩ with h | ⟨y, z, rest, hops, hswaps, h⟩
    · rw [hfront, h]
      exact .refl xs
    · obtain rfl : xs = y :: z :: rest := hops
      rw [hfront, h]
      exact .swap rest ⟨.inl hswaps, hfirst y rfl⟩
  -- what steps back in the order of calls is a call
  have hcalls : Exchanges (fun y z => policy.Passes op y z ∧ y ≠ x) front.operands
      (front.bubbleBy (policy.sinksBack op)).operands := by
    refine (exchanges_bubble _ front.operands).imp fun y z hsinks => ⟨.inr (.inl hsinks), ?_⟩
    rintro rfl
    simp only [Policy.sinksBack, Bool.and_eq_true] at hsinks
    simp [Operand.noCall, hsinks.1.1.1] at hx
  -- and what steps back in the order by size is movable
  have hsizes : Exchanges (fun y z => policy.Passes op y z ∧ y ≠ x)
      (front.bubbleBy (policy.sinksBack op)).operands
      ((front.bubbleBy (policy.sinksBack op)).bubbleBy (policy.outgrows op)).operands := by
    refine (exchanges_bubble _ _).imp fun y z houtgrows => ⟨.inr (.inr houtgrows), ?_⟩
    rintro rfl
    simp [Policy.outgrows, Policy.movable, hright] at houtgrows
  -- the first swap may have flipped the operator, which changes no test
  rw [sized, eq_of_op_swapFront policy policy.sinksBack_converse,
    eq_of_op_swapFront policy policy.outgrows_converse]
  exact (hstart.trans hcalls).trans hsizes

/-- **The swap in front moves a right-exempt operand** only if it stands first, and the second
is smaller. -/
theorem swapFront_getElem? {a : Arrangement α} {i : Nat} (hget : a.operands[i]? = some x)
    (hright : policy.exemptsRight a.op x.profile.form = true) :
    (a.swapFront policy).operands[i]? = some x ∨
      i = 0 ∧ ∃ y, (a.swapFront policy).operands[0]? = some y ∧
      (a.swapFront policy).operands[1]? = some x ∧
        policy.swapsFront a.op x.profile y.profile = true := by
  rcases swapFront_cases policy a with h | ⟨y, z, rest, hops, hswaps, h⟩
  · rw [h]
    exact .inl hget
  · rw [hops] at hget
    rw [h]
    match i, hget with
    | 0, hget =>
      -- on the left it may step back
      obtain rfl : y = x := Option.some.inj hget
      exact .inr ⟨rfl, z, rfl, rfl, hswaps⟩
    | 1, hget =>
      -- on the right it does not move
      obtain rfl : z = x := Option.some.inj hget
      simp [Policy.swapsFront, Policy.exemptsPair, hright] at hswaps
    | i + 2, hget => exact .inl hget

end Arrangement

/-! ### Where it comes out -/

section Lands

variable {α : Type} (policy : Policy) {op : BinaryOp} {xs : List (Operand α)} {x : Operand α}

/-- Where there is no chain to be put in order, a right-exempt operand that does not stand
first stays. -/
theorem arrange_getElem?_of_stays {i : Nat} (hget : xs[i]? = some x) (hi : 0 < i)
    (hright : policy.exemptsRight op x.profile.form = true)
    (h : op.isFlippable = false ∨ ¬ 2 < xs.length) :
    (arrange policy op xs).operands[i]? = some x := by
  by_cases hfixed : isFixed op xs = true
  · rw [arrange_of_isFixed policy op hfixed]
    exact hget
  · have hfixed : isFixed op xs = false := by simpa using hfixed
    have hshort : ¬ 2 < xs.length :=
      h.resolve_left (by simp [((isFixed_eq_false_iff op).mp hfixed).1])
    rw [arrange_of_not_isFixed policy op hfixed, if_neg hshort]
    exact (Arrangement.swapFront_getElem? policy hget hright).resolve_right fun h => hi.ne' h.1

/-- **Where a right-exempt operand comes out** among the operands of a chain, if it does not stand
first: behind what stood before it, but for the calls that pass it. -/
theorem arrange_lands {front run post : List (Operand α)} (hxs : xs = front ++ (run ++ x :: post))
    (hmovable : isFixed op xs = false) (hlength : 2 < xs.length) (hfirst : ∀ y ∈ xs.head?, y ≠ x)
    (hfront : ∀ b ∈ front.getLast?, policy.exempts op b.profile.form = true)
    (hrun : ∀ y ∈ run, policy.exempts op y.profile.form = false) (hx : x.noCall = true)
    (hfree : policy.exempts op x.profile.form = false)
    (hright : policy.exemptsRight op x.profile.form = true) :
    (arrange policy op xs).operands[front.length + run.countP Operand.noCall]? = some x ∨
      front.length + run.countP Operand.noCall = 0 ∧ ∃ y,
        (arrange policy op xs).operands[0]? = some y ∧
        (arrange policy op xs).operands[1]? = some x ∧
        policy.swapsFront op x.profile y.profile = true := by
  set start := Arrangement.swapFront policy ⟨op, xs, false⟩ with hstart
  have harrange : arrange policy op xs = (start.sized policy).swapFront policy := by
    rw [arrange_of_not_isFixed policy op hmovable, if_pos hlength, Arrangement.sortChain_eq]
  have hexchanges := Arrangement.exchanges_sized policy hx hright hfirst
  obtain ⟨hsettled, -⟩ := Arrangement.settled_sized policy start
  -- the first swap may have flipped the operator, which changes no test
  rw [Arrangement.eq_of_op_swapFront policy policy.sinksBack_converse] at hsettled
  have hswaps := Arrangement.eq_of_op_swapFront policy policy.swapsFront_converse ⟨op, xs, false⟩
  have hsame : policy.exemptsRight start.op x.profile.form =
      policy.exemptsRight op x.profile.form :=
    Arrangement.eq_of_op_swapFront policy (f := fun op => policy.exemptsRight op x.profile.form)
      (fun op => policy.exemptsRight_converse op x.profile.form) ⟨op, xs, false⟩
  have hplace := hexchanges.lands hxs hsettled hfront hrun hx hfree hright
  have hlast := Arrangement.swapFront_getElem? policy hplace (hsame.trans hright)
  rw [harrange, ← hswaps]
  exact hlast

end Lands

namespace Expr

variable (policy : Policy) (op : BinaryOp) (es : List Expr)

/-- **How many calls pass the operand at a place** of a chain that is put in order: those between it
and the nearest exempt operand before it. None passes an exempt operand. -/
def callsPassing (i : Nat) : Nat :=
  if op.isFlippable && 2 < es.length && !es[i]?.any (fun x => policy.exempts op x.form) then
    ((es.take i).rtakeWhile fun y => !policy.exempts op y.form).countP (·.form.isCall)
  else 0

/-- **Where a right-exempt literal comes out,** if it was at place `i` and `n` calls pass it: so
many places further up, or behind a smaller operand, if there was nothing else in front of it. -/
def Landed (placed : List (Expr × Nat)) (x : Expr) (i n : Nat) : Prop :=
  placed[i - n]? = some (x, i) ∨
    n = i ∧ ∃ y k, placed[0]? = some (y, k) ∧ placed[1]? = some (x, i) ∧
      policy.swapsFront op x.profile y.profile = true

/-- **Right-exempt literals.** Where the operands `es` of `op` end up, if `placed` lists them in
their new order with the places they had: a right-exempt literal that did not stand first lands
where the calls that pass it leave it, and with more than one operand in front of it, it holds its
place exactly if no call passes it. -/
structure LiteralsLand (placed : List (Expr × Nat)) : Prop where
  perm : placed.Perm es.zipIdx
  lands : ∀ i x, es[i]? = some x → x.form.isLiteral = true → policy.exemptsRight op x.form = true →
    0 < i → Landed policy op placed x i (callsPassing policy op es i)
  held : ∀ i x, es[i]? = some x → x.form.isLiteral = true → policy.exemptsRight op x.form = true →
    1 < i → (placed[i]? = some (x, i) ↔ callsPassing policy op es i = 0)

variable {policy op es}

/-- The operands up to the nearest exempt one before a place, those from there to it, the one that
is there, and the rest, each with its place. -/
theorem exists_stretches (policy : Policy) (op : BinaryOp) {i : Nat} {x : Expr}
    (hget : es[i]? = some x) :
    ∃ front run post : List (Expr × Nat), es.zipIdx = front ++ (run ++ (x, i) :: post) ∧
      front.length + run.length = i ∧ (∀ b ∈ front.getLast?, policy.exempts op b.1.form = true) ∧
      (∀ y ∈ run, policy.exempts op y.1.form = false) ∧
      run.map Prod.fst = (es.take i).rtakeWhile fun y => !policy.exempts op y.form := by
  have hplace : es.zipIdx[i]? = some (x, i) := by simp [List.getElem?_zipIdx, hget]
  obtain ⟨hi, hplace⟩ := List.getElem?_eq_some_iff.mp hplace
  -- the operands before the place are cut behind the last exempt one
  let isFree : Expr × Nat → Bool := fun y => !policy.exempts op y.1.form
  have hparts : (es.zipIdx.take i).rdropWhile isFree ++ (es.zipIdx.take i).rtakeWhile isFree =
      es.zipIdx.take i :=
    List.rdropWhile_append_rtakeWhile
  refine ⟨(es.zipIdx.take i).rdropWhile isFree, (es.zipIdx.take i).rtakeWhile isFree,
    es.zipIdx.drop (i + 1), ?_, ?_, ?_, ?_, ?_⟩
  · rw [← List.append_assoc, hparts, ← hplace, ← List.drop_eq_getElem_cons hi,
      List.take_append_drop]
  · rw [← List.length_append, hparts, List.length_take_of_le hi.le]
  · intro b hb
    obtain ⟨hne, rfl⟩ := List.mem_getLast?_eq_getLast hb
    simpa [isFree] using List.rdropWhile_last_not isFree _ hne
  · intro y hy
    simpa [isFree] using List.mem_rtakeWhile_imp hy
  · have htake : es.take i = (es.zipIdx.take i).map Prod.fst := by
      rw [List.map_take, List.zipIdx_map_fst]
    rw [htake, List.rtakeWhile, List.rtakeWhile, ← List.map_reverse, List.takeWhile_map,
      List.map_reverse]
    rfl

/-- An operand that is placed was found there when operands were arranged with their places. -/
theorem placed_getElem? {j : Nat} {p : Expr × Nat}
    (h : (traced policy op es).operands[j]? = some (ranked p)) :
    (placed policy op es)[j]? = some p := by
  rw [placed, List.getElem?_map, h]
  rfl

/-- Of the operands of a stretch, the calls pass and the others do not. -/
theorem countP_calls (run : List (Expr × Nat)) :
    (run.map Prod.fst).countP (·.form.isCall) + (run.map ranked).countP Operand.noCall =
      run.length := by
  rw [List.countP_map, List.countP_map,
    List.length_eq_countP_add_countP ((fun y : Expr => y.form.isCall) ∘ Prod.fst) (l := run)]
  refine congrArg _ (List.countP_congr fun p _ => ?_)
  simp [Operand.noCall, ranked, profile]

/-- A literal that no call passes holds its place. -/
theorem landed_zero_iff {placed : List (Expr × Nat)} {x : Expr} {i : Nat} (hi : 0 < i) :
    Landed policy op placed x i 0 ↔ placed[i]? = some (x, i) :=
  or_iff_left fun h => hi.ne h.1

/-- It lands where the calls of the stretch in front of it leave it. -/
theorem landed_of_free {i : Nat} {x : Expr} (hget : es[i]? = some x) (hi : 0 < i)
    (hcall : x.form.isCall = false) (hfree : policy.exempts op x.form = false)
    (hright : policy.exemptsRight op x.form = true) (hpresent : ∀ y ∈ es, y.isMissing = false)
    (hflippable : op.isFlippable = true) (hlength : 2 < es.length) :
    Landed policy op (placed policy op es) x i
      (((es.take i).rtakeWhile fun y => !policy.exempts op y.form).countP (·.form.isCall)) := by
  obtain ⟨front, run, post, hparts, hplaces, hfront, hrun, hread⟩ := exists_stretches policy op hget
  have hxs : es.zipIdx.map ranked =
      front.map ranked ++ (run.map ranked ++ ranked (x, i) :: post.map ranked) := by
    simp only [hparts, List.map_append, List.map_cons]
  have hmovable : isFixed op (es.zipIdx.map ranked) = false :=
    (isFixed_eq_false_iff op).mpr ⟨hflippable, List.forall_mem_map.mpr fun p hp =>
      hpresent p.1 (List.fst_mem_of_mem_zipIdx hp)⟩
  -- the first operand has another place
  have hfirst : ∀ y ∈ (es.zipIdx.map ranked).head?, y ≠ ranked (x, i) := by
    rcases es with _ | ⟨e, es⟩
    · exact nofun
    · rintro y hy rfl
      have hzero : (0 : Nat) = i := congrArg (·.item.2) (Option.some.inj hy)
      exact hi.ne hzero
  have hends : ∀ b ∈ (front.map ranked).getLast?, policy.exempts op b.profile.form = true := by
    intro b hb
    rw [List.getLast?_map] at hb
    obtain ⟨p, hp, rfl⟩ := Option.map_eq_some_iff.mp hb
    exact hfront p hp
  have hlands :=
    arrange_lands policy hxs hmovable (by rwa [List.length_map, List.length_zipIdx]) hfirst hends
    (List.forall_mem_map.mpr hrun) (Operand.noCall_iff.mpr hcall) hfree hright
  have hcounts := countP_calls run
  rw [hread] at hcounts
  have hplace : front.length + (run.map ranked).countP Operand.noCall =
      i - ((es.take i).rtakeWhile fun y => !policy.exempts op y.form).countP (·.form.isCall) := by
        omega
  rw [List.length_map, hplace] at hlands
  rcases hlands with hlands | ⟨hzero, y, hy, hx, hswaps⟩
  · exact .inl (placed_getElem? hlands)
  · -- the operand that it stepped back past is one of the given ones too, so its profile is that
    -- of a tree
    obtain ⟨p, -, rfl⟩ :=
      List.mem_map.mp ((arrange_perm policy op _).mem_iff.mp (List.mem_of_getElem? hy))
    exact .inr ⟨by omega, p.1, p.2, placed_getElem? hy, placed_getElem? hx, hswaps⟩

/-- **A right-exempt literal lands** where the calls that pass it leave it. -/
theorem landed_placed {i : Nat} {x : Expr} (hget : es[i]? = some x) (hi : 0 < i)
    (hliteral : x.form.isLiteral = true) (hright : policy.exemptsRight op x.form = true)
    (hpresent : ∀ y ∈ es, y.isMissing = false) :
    Landed policy op (placed policy op es) x i (callsPassing policy op es i) := by
  rw [callsPassing, hget, Option.any_some]
  split
  case isTrue hpassed =>
    simp only [Bool.and_eq_true, decide_eq_true_eq, Bool.not_eq_true'] at hpassed
    obtain ⟨⟨hflippable, hlength⟩, hfree⟩ := hpassed
    exact landed_of_free hget hi (Form.isCall_of_isLiteral hliteral) hfree hright hpresent
      hflippable hlength
  case isFalse hstays =>
    refine (landed_zero_iff hi).mpr ?_
    by_cases hexempt : policy.exempts op x.form = true
    · -- it is a barrier
      exact ((barred_placed policy op es).exempt i x hget hexempt).1
    · -- nothing is put in order but the first two
      have hranked : (es.zipIdx.map ranked)[i]? = some (ranked (x, i)) := by
        simp [List.getElem?_zipIdx, hget]
      refine placed_getElem? (arrange_getElem?_of_stays policy hranked hi hright ?_)
      rw [List.length_map, List.length_zipIdx]
      by_contra hchain
      rw [not_or, Bool.not_eq_false, not_not] at hchain
      simp [hexempt, hchain] at hstays

/-- **Behind another operand, it holds its place exactly if no call passes it.** -/
theorem Landed.held_iff {placed : List (Expr × Nat)} {x : Expr} {i n : Nat}
    (h : Landed policy op placed x i n) (hperm : placed.Perm es.zipIdx) (hi : 1 < i) :
    placed[i]? = some (x, i) ↔ n = 0 := by
  -- no operand is at two places
  have hnodup : placed.Nodup := by
    rw [hperm.nodup_iff]
    refine List.Pairwise.of_map (S := (· ≠ ·)) Prod.snd (fun p q => mt (congrArg Prod.snd)) ?_
    rw [List.zipIdx_map_snd]
    exact List.nodup_range'
  have honce : ∀ {j k : Nat}, placed[j]? = some (x, i) → placed[k]? = some (x, i) → j = k :=
    fun hj hk =>
    (List.getElem?_inj (List.getElem?_eq_some_iff.mp hj).1 hnodup).mp (hj.trans hk.symm)
  rcases h with hlands | ⟨rfl, y, k, -, hsecond, -⟩
  · constructor
    · intro hheld
      have hsame := honce hlands hheld
      omega
    · rintro rfl
      exact hlands
  · constructor
    · intro hheld
      have hsame := honce hsecond hheld
      omega
    · omega

/-- **Right-exempt literals land** where the calls that pass them leave them. -/
theorem literalsLand_placed (hpresent : ∀ y ∈ es, y.isMissing = false) :
    LiteralsLand policy op es (placed policy op es) where
  perm := placed_perm policy op es
  lands i x hget hliteral hright hi := landed_placed hget hi hliteral hright hpresent
  held i x hget hliteral hright hi := by
    have hlanded := landed_placed hget (Nat.zero_lt_of_lt hi) hliteral hright hpresent
    exact hlanded.held_iff (placed_perm policy op es) hi

end Expr

namespace Store

/-- **Where right-exempt literals come out.** A tree in a well-formed store has a canonical form,
and every infix node of the tree is found there in canonical form. If none of its operands is
missing, then they are placed so that the right-exempt literals among them land where the calls that
pass them leave them. -/
theorem canonical?_right_literals (policy : Policy) {src : Store} {r : Ref} (hsrc : src.WellFormed)
    (hr : src.Holds r) (dst : Store) :
    ∃ (t : Store × Ref) (changed : Bool) (e e' : Expr), src.tree? r = some e ∧
      src.canonical? policy r dst = some (t, changed) ∧ t.1.tree? t.2 = some e' ∧
      ∀ x op, e.HasNode x → x.infixed? = some op → (∀ y ∈ x.operands, y.isMissing = false) →
        e'.HasNode (x.canonical policy).expr ∧
        ∃ placed : List (Expr × Nat),
          (x.canonical policy).expr.operands = placed.map (fun p => (p.1.canonical policy).expr) ∧
          Expr.LiteralsLand policy op x.operands placed := by
  obtain ⟨t, changed, e, e', he, ht, hread, hnodes⟩ := canonical?_placed policy hsrc hr dst
  refine ⟨t, changed, e, e', he, ht, hread, fun x op hx hop hpresent => ?_⟩
  obtain ⟨hnode, hoperands⟩ := hnodes x op hx hop
  exact ⟨hnode, _, hoperands, Expr.literalsLand_placed hpresent⟩

/-- In `f() * null * a * g()` the literal comes out first and then goes behind `a`. -/
theorem canonical?_right_literals_sample :
    let parsed := ofParsed (parse "f() * null * a * g()").expr
    let literal := Expr.literal ⟨6, 10⟩ .null "null"
    parsed.1.WellFormed ∧ parsed.1.Holds parsed.2 ∧
    (parse "f() * null * a * g()").expr.operands[1]? = some literal ∧
    Policy.standard.exemptsRight .mul literal.form = true ∧
    Expr.callsPassing .standard .mul (parse "f() * null * a * g()").expr.operands 1 = 1 ∧
    ∃ (t : Store × Ref) (changed : Bool) (e e' : Expr), parsed.1.tree? parsed.2 = some e ∧
      parsed.1.canonical? .standard parsed.2 empty = some (t, changed) ∧ t.1.tree? t.2 = some e' ∧
      ∀ x op, e.HasNode x → x.infixed? = some op → (∀ y ∈ x.operands, y.isMissing = false) →
        e'.HasNode (x.canonical .standard).expr ∧
        ∃ placed : List (Expr × Nat),
          (x.canonical .standard).expr.operands =
            placed.map (fun p => (p.1.canonical .standard).expr) ∧
          Expr.LiteralsLand .standard op x.operands placed :=
  ⟨by decide +kernel, by decide +kernel, by decide +kernel, by decide, by decide +kernel,
    canonical?_right_literals .standard (by decide +kernel) (by decide +kernel) empty⟩

/-- **A right-exempt literal that moves.** The order of calls carries `f()` past the last operand of
`a * f() * null`. -/
theorem right_literal_moved :
    let parsed := ofParsed (parse "a * f() * null").expr
    let literal := Expr.literal ⟨10, 14⟩ .null "null"
    (parse "a * f() * null").errors = [] ∧ Policy.standard.exemptsRight .mul literal.form = true ∧
    ((parsed.1.tree? parsed.2).bind fun e => e.operands[2]?) = some literal ∧
    ((parsed.1.canonical? .standard parsed.2 empty).bind fun out =>
      (out.1.1.tree? out.1.2).bind fun e => e.operands[1]?) = some literal ∧
    ((parsed.1.canonical? .standard parsed.2 empty).bind fun out => out.1.1.print? out.1.2) =
      some "a * null * f()" :=
  ⟨by decide +kernel, by decide, by decide +kernel, by decide +kernel, by decide +kernel⟩

end Store

end OperandOrder
