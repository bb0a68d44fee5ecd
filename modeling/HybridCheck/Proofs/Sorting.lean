import HybridCheck.Proofs.Expansion

/-!
# Substitution and sorts

A term is well-sorted all the way down if the sorts at every node of it fit together, the flows and
bodies of its flow primitives included. A replacement that puts terms of their kinds in the place of
variables and of references after a jump has an answer on well-sorted terms, which is well-sorted
and of the same kind: truth values stay truth values and numbers stay numbers.

Whether a number is an integer is another matter. A node that changed is built anew, and a sum,
product or difference of which the constants leave a single operand is that operand. So a sum that
is real only because of a constant becomes an integer. Where operands agree with each other and with
the sort that a node remembers, this cannot happen and the sort is kept.
-/

namespace HybridCheck

namespace SegmentOf

/-- The segment with the terms changed that it is made of, apart from its flow. -/
def mapParts (f : Term → Term) (seg : Segment) : Segment where
  flow := seg.flow
  time := f seg.time
  entry := Table.mapValues f seg.entry
  exit := Table.mapValues f seg.exit
  mode := Table.mapValues f seg.mode
  ends := seg.ends

theorem parts_mapParts (f : Term → Term) (seg : Segment) :
    (seg.mapParts f).parts = seg.parts.map f := by
  simp [mapParts, parts, Table.mapValues, Function.comp_def]

theorem context_mapParts (f : Term → Term) (seg : Segment) :
    (seg.mapParts f).context = Table.mapValues f seg.context :=
  (Table.mapValues_merge f seg.mode seg.entry).symm

/-- The sorts in a segment fit together: what flows is a number, and what is read along the flow,
among the terms `inner`, is of the kind of the value that the segment has for it. -/
structure Fitting (seg : Segment) (inner : List Term) : Prop where
  clock : seg.flow.clock.sort.numeric = true
  time : seg.time.sort.numeric = true
  flow : ∀ a ∈ seg.flow.terms, a.sort.numeric = true
  moving : ∀ e ∈ seg.entry, seg.flow.moves e.1 = true → e.2.sort.numeric = true
  ends : ∀ e ∈ seg.exit, ∀ u, Table.get? seg.entry e.1 = some u → e.2.sort.alike u.sort = true
  now : ∀ a ∈ inner, ∀ v, a.mentions v = true → v.role = .logical →
    ∀ u, seg.context.get? v.name = some u → u.sort.alike v.sort = true
  next : ∀ a ∈ inner, ∀ v, Term.next v ∈ a.subterms →
    ∀ u, Table.get? seg.exit v.name = some u → u.sort.alike v.sort = true

variable {seg : Segment} {inner : List Term}

/-- Terms of their kinds in the place of its parts leave a segment fitting. -/
theorem Fitting.mapParts (h : seg.Fitting inner) {f : Term → Term}
    (alike : ∀ a ∈ seg.parts, (f a).sort.alike a.sort = true) :
    (seg.mapParts f).Fitting inner := by
  have entry {e : String × Term} (he : e ∈ seg.entry) := alike _ (mem_parts (Or.inl he))
  have exit {e : String × Term} (he : e ∈ seg.exit) := alike _ (mem_parts (Or.inr (Or.inl he)))
  refine ⟨h.clock, ?_, h.flow, ?_, ?_, ?_, ?_⟩
  · exact TermSort.numeric_of_alike (alike _ (List.mem_cons_self ..)) h.time
  · intro e' he' moves
    obtain ⟨e, he, rfl⟩ := List.mem_map.1 he'
    exact TermSort.numeric_of_alike (entry he) (h.moving e he moves)
  · intro e' he' u hu
    obtain ⟨e, he, rfl⟩ := List.mem_map.1 he'
    obtain ⟨w, hw, rfl⟩ : ∃ w, Table.get? seg.entry e.1 = some w ∧ f w = u := by
      simpa [SegmentOf.mapParts] using hu
    exact TermSort.alike_trans (exit he) (TermSort.alike_trans (h.ends e he w hw)
      (TermSort.alike_symm (entry (Table.mem_of_get? hw))))
  · intro a ha v hv role u hu
    obtain ⟨w, hw, rfl⟩ : ∃ w, seg.context.get? v.name = some w ∧ f w = u := by
      simpa [context_mapParts] using hu
    have part : w ∈ seg.parts := of_context (H := (· ∈ seg.parts))
      (fun e he => mem_parts ((List.mem_append.1 he).imp_right Or.inr)) hw
    exact TermSort.alike_trans (alike w part) (h.now a ha v hv role w hw)
  · intro a ha v hv u hu
    obtain ⟨w, hw, rfl⟩ : ∃ w, Table.get? seg.exit v.name = some w ∧ f w = u := by
      simpa [SegmentOf.mapParts] using hu
    exact TermSort.alike_trans (exit (Table.mem_of_get? hw)) (h.next a ha v hv w hw)

end SegmentOf

namespace Term

/-- The sorts at every node of a term fit together, also in its flows and in what holds throughout
them. -/
inductive WellSorted : Term → Prop where
  | var (v : Var) : WellSorted (var v)
  | next (v : Var) : WellSorted (next v)
  | operator {t : Term} {o : Operator} : t.operator? = some o →
      o.accepts (t.operands.map sort) = true → (∀ a ∈ t.operands, WellSorted a) → WellSorted t
  | quant {q : Quantifier} {v : Var} {body : Term} :
      body.sort = .bool → WellSorted body → WellSorted (quant q v body)
  | integral {seg : Segment} : seg.Fitting seg.flow.terms → (∀ a ∈ seg.parts, WellSorted a) →
      (∀ a ∈ seg.flow.terms, WellSorted a) → WellSorted (integral seg)
  | throughout {seg : Segment} {body : Term} : seg.Fitting (body :: seg.flow.terms) →
      body.sort = .bool → (∀ a ∈ seg.parts, WellSorted a) →
      (∀ a ∈ body :: seg.flow.terms, WellSorted a) → WellSorted (throughout seg body)

theorem WellSorted.of_operator {t : Term} {o : Operator} (h : WellSorted t)
    (ho : t.operator? = some o) :
    o.accepts (t.operands.map sort) = true ∧ ∀ a ∈ t.operands, WellSorted a := by
  cases h with
  | operator ho' accepts sorted =>
    cases ho.symm.trans ho'
    exact ⟨accepts, sorted⟩
  | _ => cases ho

open scoped Classical in
/-- A flow primitive counts as well-sorted if it is so all the way down. -/
noncomputable def deep : Judge
  | seg, none => decide (WellSorted (integral seg))
  | seg, some body => decide (WellSorted (throughout seg body))

theorem sorted_deep {t : Term} : t.sorted deep = true ↔ WellSorted t := by
  constructor
  · intro h
    have node : sortedNode deep t = true := List.all_eq_true.1 h t (self_mem_subterms t)
    induction t using induct with
    | operator t o ho ih =>
      obtain ⟨accepts, sorted⟩ := (sorted_operator ho).1 h
      refine .operator ho accepts fun a ha => ih a ha (sorted a ha) ?_
      exact List.all_eq_true.1 (sorted a ha) a (self_mem_subterms a)
    | var v => exact .var v
    | next v => exact .next v
    | quant q v body ih =>
      obtain ⟨hs, sorted⟩ := (sorted_quant q v body).1 h
      exact .quant hs (ih sorted (List.all_eq_true.1 sorted body (self_mem_subterms body)))
    | integral seg => simpa [sortedNode, deep] using node
    | throughout seg body => simpa [sortedNode, deep] using node
  · intro h
    induction h with
    | var | next => rfl
    | operator ho accepts _ ih => exact (sorted_operator ho).2 ⟨accepts, ih⟩
    | quant hs _ ih => exact (sorted_quant _ _ _).2 ⟨hs, ih⟩
    | @integral seg fits parts flow ih _ =>
      refine List.all_eq_true.2 fun n hn => ?_
      rcases (mem_subterms_flow (Or.inl rfl)).1 hn with rfl | ⟨a, ha, hn⟩
      · simpa [sortedNode, deep] using WellSorted.integral fits parts flow
      · exact List.all_eq_true.1 (ih a ha) n hn
    | @throughout seg body fits hs parts inner ih _ =>
      refine List.all_eq_true.2 fun n hn => ?_
      rcases (mem_subterms_flow (Or.inr ⟨body, rfl⟩)).1 hn with rfl | ⟨a, ha, hn⟩
      · simpa [sortedNode, deep] using WellSorted.throughout fits hs parts inner
      · exact List.all_eq_true.1 (ih a ha) n hn

/-! ## Transforming a term part by part -/

section Transform

variable {r : Replacement} {f : Term → Term}

theorem transformTable_eq {es : List (String × Term)}
    (h : ∀ e ∈ es, e.2.transform r = .ok (f e.2)) :
    transformTable r es = .ok (Table.mapValues f es) := by
  induction es with
  | nil => rfl
  | cons e es ih =>
    obtain ⟨k, a⟩ := e
    obtain ⟨a', ha', hf⟩ : ∃ a', a.transform? r = .ok a' ∧ a'.getD a = f a :=
      transform_eq_ok.1 (h (k, a) (by simp))
    rw [transformTable, ha', ih fun e he => h e (by simp [he])]
    simp [Table.mapValues, hf]

/-- A flow primitive is kept with its parts transformed. -/
theorem transform_flow (hr : r.onSegment = none) {seg : Segment}
    (h : ∀ a ∈ seg.parts, a.transform r = .ok (f a)) :
    (integral seg).transform r = .ok (integral (seg.mapParts f)) ∧
      ∀ body, (throughout seg body).transform r = .ok (throughout (seg.mapParts f) body) := by
  obtain ⟨⟨clock, rates, solution⟩, time, entry, exit, mode, ends⟩ := seg
  have part (es : List (String × Term)) (hes : ∀ e ∈ es, e ∈ entry ∨ e ∈ exit ∨ e ∈ mode) :
      transformTable r es = .ok (Table.mapValues f es) :=
    transformTable_eq fun e he => h e.2 (SegmentOf.mem_parts (hes e he))
  have entries := part entry fun e he => Or.inl he
  have exits := part exit fun e he => Or.inr (Or.inl he)
  have modes := part mode fun e he => Or.inr (Or.inr he)
  obtain ⟨time', htime, hf⟩ := transform_eq_ok.1 (h time (List.mem_cons_self ..))
  refine ⟨?_, fun body => ?_⟩ <;>
  · rw [transform, transform?]
    simp only [hr, htime, entries, exits, modes, Attempt.bind_ok, Attempt.pure_eq_ok, hf]
    rfl

end Transform

/-! ## Kinds are kept -/

/-- A replacement puts a well-sorted term of its kind in the place of a variable or of a reference
after a jump. -/
def Respected (r : Replacement) : Term → Prop
  | var v => WellSorted ((r.onVar v).getD (var v)) ∧
      ((r.onVar v).getD (var v)).sort.alike v.sort = true
  | next v => WellSorted ((r.onNext v).getD (next v)) ∧
      ((r.onNext v).getD (next v)).sort.alike v.sort = true
  | _ => True

/-- A well-sorted term is transformed into a well-sorted term of its kind. -/
theorem WellSorted.transform {r : Replacement} (hr : r.onSegment = none) {t : Term}
    (h : WellSorted t) (respected : ∀ n ∈ t.subterms, n.Respected r) :
    ∃ u, t.transform r = .ok u ∧ WellSorted u ∧ u.sort.alike t.sort = true := by
  have : Nonempty Term := ⟨bot⟩
  induction h with
  | var v => exact ⟨_, transform_var v, respected (.var v) (by simp)⟩
  | next v => exact ⟨_, transform_next v, respected (.next v) (by simp)⟩
  | @operator t o ho accepts sorted ih =>
    have operands a ha := ih a ha fun n hn =>
      respected n ((mem_subterms_operator ho).2 (Or.inr ⟨a, ha, hn⟩))
    choose! f hf wellSorted alike using operands
    obtain ⟨u, hu, folds⟩ := transform_folds ho accepts hf
      (fun a ha => sorted_deep.2 (wellSorted a ha)) alike
    refine ⟨u, hu, sorted_deep.1 folds.sorted, ?_⟩
    rw [sort_operator ho]
    exact TermSort.alike_trans folds.alike (Operator.result_alike alike accepts)
  | @quant q v body hs sorted ih =>
    cases hv : r.stopsAt v with
    | true => exact ⟨_, transform_quant_of_stops hv, .quant hs sorted, rfl⟩
    | false =>
      obtain ⟨u, hu, wellSorted, alike⟩ := ih fun n hn => respected n (by simp [hn])
      have hus : u.sort = .bool := TermSort.alike_bool.1 (hs ▸ alike)
      rcases transform_quant_eq (q := q) hv hu with ⟨rfl, h⟩ | h
      · exact ⟨_, h, .quant hs wellSorted, rfl⟩
      · refine ⟨_, h, sorted_deep.1 (sorted_mkQuant (sorted_deep.2 wellSorted) hus), ?_⟩
        rw [sort_mkQuant hus]
        rfl
  | @integral seg fits parts flow ih _ =>
    have parts a ha := ih a ha fun n hn =>
      respected n ((mem_subterms_flow (Or.inl rfl)).2 (Or.inr ⟨a, ha, hn⟩))
    choose! f hf wellSorted alike using parts
    refine ⟨_, (transform_flow hr hf).1, .integral (fits.mapParts alike) ?_ flow, rfl⟩
    rw [SegmentOf.parts_mapParts]
    simpa using wellSorted
  | @throughout seg body fits hs parts inner ih _ =>
    have parts a ha := ih a ha fun n hn =>
      respected n ((mem_subterms_flow (Or.inr ⟨body, rfl⟩)).2 (Or.inr ⟨a, ha, hn⟩))
    choose! f hf wellSorted alike using parts
    refine ⟨_, (transform_flow hr hf).2 body, .throughout (fits.mapParts alike) hs ?_ inner, rfl⟩
    rw [SegmentOf.parts_mapParts]
    simpa using wellSorted

end Term

/-! ## Sorts are kept where operands agree -/

/-- Whether operands of an operator of arithmetic, and branches of a conditional, are of the sort of
the result. -/
def Operator.uniform : Operator → List TermSort → Bool
  | add s, ss | mul s, ss => ss.all (· = s.toSort) && (s = .int || !ss.isEmpty)
  | sub, [s, t] | ite, [_, s, t] => s = t
  | _, _ => true

namespace Term

theorem arithSort_eq_real {as : List Term} : arithSort as = .real ↔ ∃ a ∈ as, a.sort = .real := by
  simp [arithSort]

variable {as : List Term} {a b u : Term}

/-- A sum is real if one of its operands is, unless one operand is all that is left of it. -/
theorem sort_mkAdd (hu : mkAdd as = .ok u) : u.sort = (arithSort as).toSort ∨ u ∈ as := by
  obtain ⟨⟨qs, rest⟩, hs, hu⟩ := Attempt.bind_eq_ok.1 hu
  dsimp only at hu
  split at hu
  · next heq =>
    cases hu
    split at heq
    · rcases List.append_eq_singleton_iff.1 heq with ⟨-, h⟩ | ⟨-, h⟩
      · obtain rfl : num _ _ = u := by simpa using h
        exact Or.inl rfl
      · cases h
    · exact Or.inr (mem_of_splitNumbers hs u (by simp [heq]))
  · cases hu
    exact Or.inl rfl

/-- A product is real if one of its operands is, unless one operand is all that is left of it. -/
theorem sort_mkMul (hu : mkMul as = .ok u) : u.sort = (arithSort as).toSort ∨ u ∈ as := by
  obtain ⟨⟨qs, rest⟩, hs, hu⟩ := Attempt.bind_eq_ok.1 hu
  dsimp only at hu
  split at hu
  · cases hu
    exact Or.inl rfl
  · split at hu
    · next heq =>
      cases hu
      split at heq
      · obtain ⟨rfl, -⟩ := List.cons_eq_cons.1 heq
        exact Or.inl rfl
      · exact Or.inr (mem_of_splitNumbers hs u (by simp [heq]))
    · cases hu
      exact Or.inl rfl

/-- A difference is real if one of its sides is, unless its left side is all that is left of it. -/
theorem sort_mkSub (hu : mkSub a b = .ok u) : u.sort = (arithSort [a, b]).toSort ∨ u = a := by
  have plain : (sub a b).sort = (arithSort [a, b]).toSort := by
    by_cases h : a.sort = .real ∨ b.sort = .real <;> simp [sort, arithSort, h, NumSort.toSort]
  unfold mkSub at hu
  split at hu
  · cases hu
  · split at hu
    · cases hu
      exact Or.inr rfl
    · split at hu
      · cases hu
      · cases hu
        exact Or.inl rfl
      · cases hu
        exact Or.inl plain
  · cases hu
    exact Or.inl plain

theorem sort_mkDiv (hu : mkDiv a b = .ok u) : u.sort = .real := by
  unfold mkDiv at hu
  split at hu
  · cases hu
  · split at hu
    · cases hu
      rfl
    · split at hu
      · cases hu
      · cases hu
        rfl
      · split at hu
        · next h =>
          cases hu
          exact h.2
        · cases hu
          rfl
  · cases hu
    rfl

theorem sort_mkNeg (hu : mkNeg a = .ok u) : u.sort = a.sort := by
  unfold mkNeg at hu
  split at hu <;> cases hu <;> rfl

/-- Operands that agree are of the sort of their sum, product or difference. -/
theorem arithSort_of_uniform {s : NumSort} (h : ∀ a ∈ as, a.sort = s.toSort)
    (hs : s = .int ∨ as ≠ []) : arithSort as = s := by
  cases s with
  | int =>
    simp only [arithSort, List.any_eq_true, decide_eq_true_eq, ite_eq_right_iff, reduceCtorEq,
      imp_false, not_exists, not_and]
    exact fun a ha => by rw [h a ha]; decide
  | real =>
    obtain ⟨a, ha⟩ := List.exists_mem_of_ne_nil as (hs.resolve_left (by decide))
    exact arithSort_eq_real.2 ⟨a, ha, h a ha⟩

/-- What an operator builds from operands that agree is of the sort of its result. -/
theorem sort_build {o : Operator} (sorted : ∀ a ∈ as, WellSorted a)
    (accepts : o.accepts (as.map sort) = true) (uniform : o.uniform (as.map sort) = true)
    (hu : o.build as = .ok u) : u.sort = o.result (as.map sort) := by
  obtain ⟨u', hu', folds⟩ := folds_build
    (fun a ha => sorted_deep.2 (sorted a ha)) accepts
  obtain rfl : u' = u := by
    cases hu'.symm.trans hu
    rfl
  have alike := folds.alike
  have ofSum {s : NumSort} (h : (Operator.add s).uniform (as.map sort) = true)
      (hu : u'.sort = (arithSort as).toSort ∨ u' ∈ as) : u'.sort = s.toSort := by
    simp only [Operator.uniform, List.all_map, Bool.and_eq_true, List.all_eq_true, Function.comp,
      decide_eq_true_eq, Bool.or_eq_true, List.isEmpty_map, Bool.not_eq_true',
      List.isEmpty_eq_false_iff] at h
    rcases hu with hu | hu
    · rw [hu, arithSort_of_uniform h.1 h.2]
    · exact h.1 u' hu
  cases o with
  | bool | and | or | not | implies | cmp => exact TermSort.alike_bool.1 alike
  | num s q =>
    cases hu
    rfl
  | add s => exact ofSum uniform (sort_mkAdd hu)
  | mul s => exact ofSum uniform (sort_mkMul hu)
  | sub =>
    rcases as with _ | ⟨a, _ | ⟨b, _ | ⟨c, as⟩⟩⟩
    case cons.cons.nil =>
      have same : a.sort = b.sort := by simpa [Operator.uniform] using uniform
      have numeric : a.sort.numeric = true := by
        simp only [Operator.accepts, List.map_cons, List.map_nil, Bool.and_eq_true] at accepts
        exact accepts.1
      rcases sort_mkSub hu with h | rfl
      · rw [h]
        by_cases hr : b.sort = .real <;>
          simp [arithSort, Operator.result, same, hr, NumSort.toSort]
      · simp only [Operator.result, List.map_cons, List.map_nil, ← same, or_self]
        cases hs : u'.sort <;> simp [hs, TermSort.numeric] at numeric ⊢
    all_goals cases hu
  | div =>
    rcases as with _ | ⟨a, _ | ⟨b, _ | ⟨c, as⟩⟩⟩
    case cons.cons.nil => exact sort_mkDiv hu
    all_goals cases hu
  | neg =>
    rcases as with _ | ⟨a, _ | ⟨b, as⟩⟩
    case cons.nil => exact sort_mkNeg hu
    all_goals cases hu
  | ite =>
    rcases as with _ | ⟨c, _ | ⟨a, _ | ⟨b, _ | ⟨d, as⟩⟩⟩⟩
    case cons.cons.cons.nil =>
      have same : a.sort = b.sort := by simpa [Operator.uniform] using uniform
      cases hu
      change (mkIte c a b).sort = a.sort
      unfold mkIte
      split
      · rfl
      · exact same.symm
      · rfl
    all_goals cases hu

/-- Whether the operands of all sums, products, differences and conditionals agree in sort with the
result. -/
def uniform (t : Term) : Bool :=
  t.subterms.all fun n => n.operator?.all fun o => o.uniform (n.operands.map sort)

theorem uniform_operator {t : Term} {o : Operator} (h : t.operator? = some o) :
    t.uniform = true ↔
      o.uniform (t.operands.map sort) = true ∧ ∀ a ∈ t.operands, a.uniform = true := by
  simp only [uniform, List.all_eq_true, forall_subterms_operator h]
  simp [h]

/-- A replacement puts a term of its sort in the place of a variable or of a reference after a
jump. -/
def Preserved (r : Replacement) : Term → Prop
  | var v => ((r.onVar v).getD (var v)).sort = v.sort
  | next v => ((r.onNext v).getD (next v)).sort = v.sort
  | _ => True

/-- Where operands agree, a replacement that keeps the sorts of variables keeps the sort of the
term. -/
theorem WellSorted.sort_transform {r : Replacement} (hr : r.onSegment = none) {t u : Term}
    (h : WellSorted t) (respected : ∀ n ∈ t.subterms, n.Respected r)
    (preserved : ∀ n ∈ t.subterms, n.Preserved r) (uniform : t.uniform = true)
    (hu : t.transform r = .ok u) : u.sort = t.sort := by
  have : Nonempty Term := ⟨bot⟩
  have truth {t u : Term} (h : WellSorted t) (respected : ∀ n ∈ t.subterms, n.Respected r)
      (hu : t.transform r = .ok u) (ht : t.sort = .bool) : u.sort = t.sort := by
    obtain ⟨u', hu', -, alike⟩ := h.transform hr respected
    cases hu'.symm.trans hu
    rw [ht] at alike ⊢
    exact TermSort.alike_bool.1 alike
  induction t using induct generalizing u with
  | operator t o ho ih =>
    obtain ⟨accepts, sorted⟩ := h.of_operator ho
    obtain ⟨even, operands⟩ := (uniform_operator ho).1 uniform
    have below {a n : Term} (ha : a ∈ t.operands) (hn : n ∈ a.subterms) : n ∈ t.subterms :=
      (mem_subterms_operator ho).2 (Or.inr ⟨a, ha, hn⟩)
    have respected a ha n (hn : n ∈ subterms a) := respected n (below ha hn)
    have transformed a ha := (sorted a ha).transform hr (respected a ha)
    choose! f hf wellSorted alike using transformed
    have same : (t.operands.map f).map sort = t.operands.map sort := by
      rw [List.map_map]
      exact List.map_congr_left fun a ha => ih a ha (sorted a ha) (respected a ha)
        (fun n hn => preserved n (below ha hn)) (operands a ha) (hf a ha)
    rcases transform_eq ho hf with ⟨-, kept⟩ | built
    · cases kept.symm.trans hu
      rfl
    · rw [sort_operator ho, ← same]
      rw [← same] at accepts even
      exact sort_build (by simpa using wellSorted) accepts even (built.symm.trans hu)
  | var v =>
    cases (transform_var v).symm.trans hu
    exact preserved (.var v) (by simp)
  | next v =>
    cases (transform_next v).symm.trans hu
    exact preserved (.next v) (by simp)
  | quant | integral | throughout => exact truth h respected hu rfl

theorem respected_ofSubst {s : Subst} {t : Term}
    (h : ∀ v, var v ∈ t.subterms → v.role = .logical → ∀ u, s.get? v.name = some u →
      WellSorted u ∧ u.sort.alike v.sort = true) :
    ∀ n ∈ t.subterms, n.Respected (.ofSubst s) := by
  intro n hn
  cases n with
  | var v =>
    refine getD_ofSubst (H := fun u => WellSorted u ∧ u.sort.alike v.sort = true) ?_ (h v hn)
    exact fun _ => ⟨.var v, TermSort.alike_refl _⟩
  | next v => exact ⟨.next v, TermSort.alike_refl _⟩
  | _ => trivial

theorem respected_replace {v : Var} {d : Term} (hd : WellSorted d)
    (alike : d.sort.alike v.sort = true) (n : Term) :
    n.Respected
      { onVar := fun w => if w = v then some d else none, stopsAt := fun w => w = v } := by
  cases n with
  | var w =>
    by_cases hw : w = v
    · simpa [Respected, hw] using ⟨hd, alike⟩
    · simpa [Respected, hw] using ⟨WellSorted.var w, TermSort.alike_refl _⟩
  | next w => exact ⟨.next w, TermSort.alike_refl _⟩
  | _ => trivial

/-- Substituting terms of the sorts of identifiers keeps terms well-sorted and of their kind, and of
their sort where operands agree. A sum, product or difference is real exactly if one of its operands
is, unless one operand is all that is left of it. -/
theorem substitute_keeps_sorts {t : Term} {s : Subst} (h : WellSorted t)
    (respects : ∀ v, var v ∈ t.subterms → v.role = .logical → ∀ u, s.get? v.name = some u →
      WellSorted u ∧ u.sort = v.sort) :
    (∃ u, t.substitute s = .ok u ∧ WellSorted u ∧ u.sort.alike t.sort = true ∧
      (t.uniform = true → u.sort = t.sort)) ∧
    ∀ (as : List Term) (u : Term), (mkAdd as = .ok u ∨ mkMul as = .ok u ∨
      ∃ a b, as = [a, b] ∧ mkSub a b = .ok u) → u ∉ as →
        (u.sort = .real ↔ ∃ a ∈ as, a.sort = .real) := by
  refine ⟨?_, fun as u hu left => ?_⟩
  · cases hs : s.isEmpty with
    | true => exact ⟨t, by rw [substitute, if_pos hs], h, TermSort.alike_refl _, fun _ => rfl⟩
    | false =>
      have respected := respected_ofSubst fun v hv role u hu => by
        obtain ⟨sorted, same⟩ := respects v hv role u hu
        exact ⟨sorted, by rw [same]; exact TermSort.alike_refl _⟩
      have preserved : ∀ n ∈ t.subterms, n.Preserved (.ofSubst s) := fun n hn => by
        cases n with
        | var v =>
          refine getD_ofSubst (H := fun u => u.sort = v.sort) (fun _ => rfl) fun role u hu => ?_
          exact (respects v hn role u hu).2
        | next v => rfl
        | _ => trivial
      obtain ⟨u, hu, sorted, alike⟩ := h.transform rfl respected
      refine ⟨u, ?_, sorted, alike, fun even => h.sort_transform rfl respected preserved even hu⟩
      rw [substitute, hs]
      exact hu
  · have sort : u.sort = (arithSort as).toSort := by
      rcases hu with hu | hu | ⟨a, b, rfl, hu⟩
      · exact (sort_mkAdd hu).resolve_right left
      · exact (sort_mkMul hu).resolve_right left
      · refine (sort_mkSub hu).resolve_right ?_
        rintro rfl
        exact left (by simp)
    rw [sort, ← arithSort_eq_real]
    cases arithSort as <;> simp [NumSort.toSort]

/-- Of a real sum a real operand is left, and of the sort of the sum. -/
theorem substitute_keeps_sorts_sum :
    ∃ u, (add .real [var ⟨"x", .real, .logical⟩, var ⟨"y", .real, .logical⟩]).substitute
      [("x", zero)] = .ok u ∧ WellSorted u ∧ u.sort = .real := by
  have h : WellSorted (add .real [var ⟨"x", .real, .logical⟩, var ⟨"y", .real, .logical⟩]) :=
    .operator rfl rfl (by simpa [operands] using ⟨.var _, .var _⟩)
  obtain ⟨⟨u, hu, sorted, -, same⟩, -⟩ := substitute_keeps_sorts (s := [("x", zero)]) h (by
    intro v hv _ u hu
    obtain rfl | rfl : v = ⟨"x", .real, .logical⟩ ∨ v = ⟨"y", .real, .logical⟩ := by
      simpa [subterms, nodes, nodesAll] using hv
    · obtain rfl : zero = u := by simpa [Table.get?] using hu
      exact ⟨.operator rfl rfl (by simp [zero, real, operands]), rfl⟩
    · simp [Table.get?] at hu)
  exact ⟨u, hu, sorted, same rfl⟩

def mixed : Term := add .real [var ⟨"n", .int, .logical⟩, var ⟨"x", .real, .logical⟩]

/-- With zero for its real operand a real sum is an integer. -/
theorem substitute_mixed : WellSorted mixed ∧
    (∀ v, var v ∈ mixed.subterms → v.role = .logical →
      ∀ u, Table.get? [("x", zero)] v.name = some u → WellSorted u ∧ u.sort = v.sort) ∧
    mixed.substitute [("x", zero)] = .ok (var ⟨"n", .int, .logical⟩) ∧
    (var ⟨"n", .int, .logical⟩).sort = .int ∧ mixed.sort = .real := by
  refine ⟨.operator (o := .add .real) rfl rfl ?_, ?_, by cbv, rfl, rfl⟩
  · simpa [mixed, operands] using ⟨WellSorted.var _, WellSorted.var _⟩
  intro v hv _ u hu
  obtain rfl | rfl : v = ⟨"n", .int, .logical⟩ ∨ v = ⟨"x", .real, .logical⟩ := by
    simpa [mixed, subterms, nodes, nodesAll] using hv
  · simp [Table.get?] at hu
  · obtain rfl : zero = u := by simpa [Table.get?] using hu
    exact ⟨.operator rfl rfl (by simp [zero, real, operands]), rfl⟩

end Term

end HybridCheck
