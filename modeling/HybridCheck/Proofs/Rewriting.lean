import HybridCheck.Proofs.Dependence

/-!
# The substitution lemma

Substituting terms for identifiers, for references after a jump or for one variable gives a term
that has, in every environment, the value of the original in the environment in which these have the
values of the terms. The substituted terms are not looked at again, so several are put in at once.
Quantifiers are entered, and the terms must not read what these bind.

Flow primitives are kept: only their parts are substituted. So what their flows and bodies read from
outside must not be among what changes. The clock of a flow is given by the segment in solutions and
in the body, but a rate is read before the clock runs; and the references in the flow of an integral
are not resolved by its exit.
-/

namespace HybridCheck

open Env

namespace Term

/-- The flow and the body of a flow primitive read from outside, apart from what the segment gives
them, only the variables `P` and the references after a jump `Q`. -/
def ReadsInside (P Q : Var → Prop) : Term → Prop
  | integral seg =>
    (∀ e ∈ seg.flow.rates, e.2.ReadsOnly (fun v => P v ∨ seg.Maps v) Q) ∧
    ∀ e ∈ seg.flow.solution, e.2.ReadsOnly (fun v => P v ∨ seg.Knows v) Q
  | throughout seg body =>
    (∀ e ∈ seg.flow.rates,
      e.2.ReadsOnly (fun v => P v ∨ seg.Maps v) fun v => Q v ∨ seg.Resolves v) ∧
    (∀ e ∈ seg.flow.solution,
      e.2.ReadsOnly (fun v => P v ∨ seg.Knows v) fun v => Q v ∨ seg.Resolves v) ∧
    body.ReadsOnly (fun v => P v ∨ seg.Knows v) fun v => Q v ∨ seg.Resolves v
  | _ => True

/-- At a node a replacement does to terms what `φ` does to environments. -/
def Follows (r : Replacement) (φ : Env → Env) : Term → Prop
  | var v => ∀ ρ : Env, ρ.Typed → ((r.onVar v).getD (var v)).eval ρ = (φ ρ).now v
  | next v => ∀ ρ : Env, ρ.Typed → ((r.onNext v).getD (next v)).eval ρ = (φ ρ).next v
  | quant _ v _ => (r.stopsAt v = true ∧ ∀ ρ x, (φ ρ).set v x = ρ.set v x) ∨
      (r.stopsAt v = false ∧ ∀ ρ : Env, ρ.Typed → ∀ x, Value.IsOf v.sort x →
        φ (ρ.set v x) = (φ ρ).set v x)
  | t@(integral _) | t@(throughout ..) =>
    ∃ P Q, (∀ ρ : Env, ρ.Typed → AgreeOn P Q ρ (φ ρ)) ∧ t.ReadsInside P Q
  | _ => True

/-- A transformed term has the value of the original in the changed environment. -/
theorem WellSorted.eval_transform {r : Replacement} {φ : Env → Env} (hr : r.onSegment = none)
    (typed : ∀ ρ : Env, ρ.Typed → (φ ρ).Typed) {t u : Term} (h : WellSorted t)
    (respected : ∀ n ∈ t.subterms, n.Respected r) (follows : ∀ n ∈ t.subterms, n.Follows r φ)
    (hu : t.transform r = .ok u) {ρ : Env} (hρ : ρ.Typed) : u.eval ρ = t.eval (φ ρ) := by
  have : Nonempty Term := ⟨bot⟩
  -- the body of a quantifier is read in another environment, so the environment varies
  induction h generalizing u ρ with
  | var v =>
    cases (transform_var v).symm.trans hu
    exact follows (.var v) (by simp) ρ hρ
  | next v =>
    cases (transform_next v).symm.trans hu
    exact follows (.next v) (by simp) ρ hρ
  | @operator t o ho accepts sorted ih =>
    have below {a n : Term} (ha : a ∈ t.operands) (hn : n ∈ a.subterms) : n ∈ t.subterms :=
      (mem_subterms_operator ho).2 (Or.inr ⟨a, ha, hn⟩)
    have transformed a ha := (sorted a ha).transform hr fun n hn => respected n (below ha hn)
    choose! f hf wellSorted alike using transformed
    obtain ⟨u', hu', folds⟩ := transform_folds ho accepts hf
      (fun a ha => sorted_deep.2 (wellSorted a ha)) alike
    cases hu'.symm.trans hu
    rw [folds.eval ρ hρ, eval_operator ho, List.map_map]
    exact congrArg o.apply (List.map_congr_left fun a ha => ih a ha
      (fun n hn => respected n (below ha hn)) (fun n hn => follows n (below ha hn)) (hf a ha) hρ)
  | @quant q v body hs sorted ih =>
    rcases follows (.quant q v body) (by simp) with ⟨stops, same⟩ | ⟨passes, commutes⟩
    · cases (transform_quant_of_stops stops).symm.trans hu
      exact eval_quant_congr fun x _ => by rw [same]
    · have below {n : Term} (hn : n ∈ body.subterms) : n ∈ (Term.quant q v body).subterms := by
        simp [hn]
      obtain ⟨w, hw, wellSorted, alike⟩ := sorted.transform hr fun n hn => respected n (below hn)
      have value : (Term.quant q v w).eval ρ = (Term.quant q v body).eval (φ ρ) := by
        refine eval_quant_congr fun x hx => ?_
        rw [ih (fun n hn => respected n (below hn)) (fun n hn => follows n (below hn)) hw
          (hρ.set hx.fits), commutes ρ hρ x hx]
      rcases transform_quant_eq (q := q) passes hw with ⟨rfl, kept⟩ | built
      · cases kept.symm.trans hu
        exact value
      · cases built.symm.trans hu
        rw [eval_mkQuant (TermSort.alike_bool.1 (hs ▸ alike)), value]
  | @integral seg fits parts flow ih _ =>
    obtain ⟨P, Q, agree, rates, solution⟩ := follows (.integral seg) (self_mem_subterms _)
    have below {a n : Term} (ha : a ∈ seg.parts) (hn : n ∈ a.subterms) :
        n ∈ (Term.integral seg).subterms :=
      (mem_subterms_flow (Or.inl rfl)).2 (Or.inr ⟨a, ha, hn⟩)
    have transformed a ha := (parts a ha).transform hr fun n hn => respected n (below ha hn)
    choose! f hf wellSorted alike using transformed
    -- the parts are transformed and have their new values; the flow is kept, and must not notice
    cases (transform_flow hr hf).1.symm.trans hu
    exact fits.eval_integral parts
      (fun a ha => ih a ha (fun n hn => respected n (below ha hn))
        (fun n hn => follows n (below ha hn)) (hf a ha) hρ) hρ (typed ρ hρ) (agree ρ hρ)
      (fun e he => (rates e he).dependsOn (flow _ (SegmentOf.mem_terms (Or.inl he))))
      fun e he => (solution e he).dependsOn (flow _ (SegmentOf.mem_terms (Or.inr he)))
  | @throughout seg body fits hs parts inner ih _ =>
    obtain ⟨P, Q, agree, rates, solution, reads⟩ :=
      follows (.throughout seg body) (self_mem_subterms _)
    have below {a n : Term} (ha : a ∈ seg.parts) (hn : n ∈ a.subterms) :
        n ∈ (Term.throughout seg body).subterms :=
      (mem_subterms_flow (Or.inr ⟨body, rfl⟩)).2 (Or.inr ⟨a, ha, hn⟩)
    have transformed a ha := (parts a ha).transform hr fun n hn => respected n (below ha hn)
    choose! f hf wellSorted alike using transformed
    have flow a (ha : a ∈ seg.flow.terms) := inner a (List.mem_cons_of_mem _ ha)
    cases ((transform_flow hr hf).2 body).symm.trans hu
    exact fits.eval_throughout parts
      (fun a ha => ih a ha (fun n hn => respected n (below ha hn))
        (fun n hn => follows n (below ha hn)) (hf a ha) hρ) hρ (typed ρ hρ) (agree ρ hρ) flow
      (fun e he => (rates e he).dependsOn (flow _ (SegmentOf.mem_terms (Or.inl he))))
      (fun e he => (solution e he).dependsOn (flow _ (SegmentOf.mem_terms (Or.inr he))))
      (reads.dependsOn (inner body (List.mem_cons_self ..)))

/-- A term is well-sorted and reads no variable that another one binds. -/
structure Apart (t u : Term) : Prop where
  sorted : u.WellSorted
  reads : u.ReadsOnly (fun v => ¬t.Binds v) fun _ => True

theorem Apart.eval_set {t u : Term} (h : Apart t u) {v : Var} (hv : t.Binds v) {ρ : Env}
    (hρ : ρ.Typed) {x : Value} (hx : Value.IsOf v.sort x) : u.eval (ρ.set v x) = u.eval ρ := by
  refine h.reads.dependsOn h.sorted _ _ (hρ.set hx.fits) hρ ⟨fun w hw => ?_, fun _ _ => rfl⟩
  refine set_now_of_ne ρ x ?_
  rintro rfl
  exact hw hv

theorem Apart.mapValues_set {t : Term} {s : Subst} (h : ∀ e ∈ s, Apart t e.2) {v : Var}
    (hv : t.Binds v) {ρ : Env} (hρ : ρ.Typed) {x : Value} (hx : Value.IsOf v.sort x) :
    s.mapValues (·.eval (ρ.set v x)) = s.mapValues (·.eval ρ) :=
  Table.mapValues_congr fun e he => (h e he).eval_set hv hρ hx

/-! ## Three replacements -/

section

variable {t : Term} (h : WellSorted t)
include h

/-- Identifiers are read from a substitution. -/
theorem WellSorted.eval_substitute {s : Subst} (apart : ∀ e ∈ s, Apart t e.2)
    (respects : ∀ v, Term.var v ∈ t.subterms → v.role = .logical →
      ∀ u, s.get? v.name = some u → u.sort.alike v.sort = true)
    (bound : ∀ v, t.Binds v → v.role = .bound)
    (inside : ∀ n ∈ t.subterms, n.ReadsInside (fun v => v.role ≠ .logical) fun _ => True) :
    ∃ u, t.substitute s = .ok u ∧
      ∀ ρ : Env, ρ.Typed → u.eval ρ = t.eval (ρ.bind (s.mapValues (·.eval ρ))) := by
  cases hs : s.isEmpty with
  | true =>
    obtain rfl : s = [] := by simpa using hs
    refine ⟨t, rfl, fun ρ _ => congrArg t.eval ?_⟩
    exact Env.ext (funext fun v => by simp [Env.bind, Table.mapValues]) rfl
  | false =>
    have fits {name : String} {u : Term} (hu : s.get? name = some u) : u.WellSorted :=
      (apart _ (Table.mem_of_get? hu)).sorted
    have respected := respected_ofSubst fun v hv role u hu =>
      ⟨fits hu, respects v hv role u hu⟩
    obtain ⟨u, hu, -⟩ := h.transform rfl respected
    refine ⟨u, by rw [substitute, hs]; exact hu, fun ρ hρ => ?_⟩
    refine h.eval_transform (φ := fun ρ => ρ.bind (s.mapValues (·.eval ρ))) rfl
      (fun ρ hρ => hρ.bind _) respected (fun n hn => ?_) hu hρ
    cases n with
    | var v =>
      intro ρ hρ
      refine getD_ofSubst (H := fun u => u.eval ρ = _) (fun own => ?_) fun role u hu => ?_
      · by_cases role : v.role = .logical
        · simp [eval, Env.bind, role, own role]
        · rw [eval, bind_now_of_role role]
      · have alike := respects v hn role u hu
        have value := (fits_eval (sorted_deep.2 (fits hu)) hρ).of_alike alike
        simp [Env.bind, role, hu, Value.found_some value]
    | next v => exact fun ρ hρ => rfl
    | quant q v body =>
      have hv : t.Binds v := ⟨q, body, hn⟩
      refine Or.inr ⟨rfl, fun ρ hρ x hx => ?_⟩
      dsimp only
      rw [Apart.mapValues_set apart hv hρ hx, bind_set (by rw [bound v hv]; decide)]
    | integral seg | throughout seg body =>
      exact ⟨_, _, fun ρ _ => ⟨fun v hv => (bind_now_of_role hv).symm, fun _ _ => rfl⟩,
        inside _ hn⟩
    | _ => trivial

/-- References after a jump are read from a substitution. -/
theorem WellSorted.eval_substituteNext {s : Subst} (apart : ∀ e ∈ s, Apart t e.2)
    (respects : ∀ v, Term.next v ∈ t.subterms →
      ∀ u, s.get? v.name = some u → u.sort.alike v.sort = true)
    (inside : ∀ n ∈ t.subterms, n.ReadsInside (fun _ => True) fun v => s.get? v.name = none) :
    ∃ u, t.substituteNext s = .ok u ∧
      ∀ ρ : Env, ρ.Typed → u.eval ρ = t.eval (ρ.bindNext (s.mapValues (·.eval ρ))) := by
  cases hs : s.isEmpty with
  | true =>
    obtain rfl : s = [] := by simpa using hs
    exact ⟨t, rfl, fun ρ _ => rfl⟩
  | false =>
    have respected : ∀ n ∈ t.subterms, n.Respected { onNext := fun v => s.get? v.name } := by
      intro n hn
      cases n with
      | var v => exact ⟨.var v, TermSort.alike_refl _⟩
      | next v =>
        cases hu : s.get? v.name with
        | none => simpa [Respected, hu] using ⟨WellSorted.next v, TermSort.alike_refl _⟩
        | some u =>
          simpa [Respected, hu] using
            ⟨(apart _ (Table.mem_of_get? hu)).sorted, respects v hn u hu⟩
      | _ => trivial
    obtain ⟨u, hu, -⟩ := h.transform rfl respected
    refine ⟨u, by rw [substituteNext, hs]; exact hu, fun ρ hρ => ?_⟩
    refine h.eval_transform (φ := fun ρ => ρ.bindNext (s.mapValues (·.eval ρ))) rfl
      (fun ρ hρ => hρ.bindNext _) respected (fun n hn => ?_) hu hρ
    cases n with
    | var v => exact fun ρ hρ => rfl
    | next v =>
      intro ρ hρ
      cases hu : s.get? v.name with
      | none => simp [hu, eval, Env.bindNext]
      | some u =>
        have sorted := sorted_deep.2 (apart _ (Table.mem_of_get? hu)).sorted
        have value := (fits_eval sorted hρ).of_alike (respects v hn u hu)
        simp [hu, Env.bindNext, Value.found_some value]
    | quant q v body =>
      refine Or.inr ⟨rfl, fun ρ hρ x hx => ?_⟩
      dsimp only
      rw [Apart.mapValues_set apart ⟨q, body, hn⟩ hρ hx]
      rfl
    | integral seg | throughout seg body =>
      refine ⟨_, _, fun ρ _ => ⟨fun _ _ => rfl, fun v hv => ?_⟩, inside _ hn⟩
      simp [Env.bindNext, hv]
    | _ => trivial

/-- One variable is read from a term put in its place. -/
theorem WellSorted.eval_replace {v : Var} {d : Term} (apart : Apart t d)
    (alike : d.sort.alike v.sort = true)
    (inside : ∀ n ∈ t.subterms, n.ReadsInside (· ≠ v) fun _ => True) :
    ∃ u, t.replace v d = .ok u ∧
      ∀ ρ : Env, ρ.Typed → u.eval ρ = t.eval (ρ.set v (d.eval ρ)) := by
  have respected (n : Term) (_ : n ∈ t.subterms) := respected_replace apart.sorted alike n
  obtain ⟨u, hu, -⟩ := h.transform rfl respected
  have fits {ρ : Env} (hρ : ρ.Typed) : Value.Fits v.sort (d.eval ρ) :=
    (fits_eval (sorted_deep.2 apart.sorted) hρ).of_alike alike
  refine ⟨u, hu, fun ρ hρ => ?_⟩
  refine h.eval_transform (φ := fun ρ => ρ.set v (d.eval ρ)) rfl (fun ρ hρ => hρ.set (fits hρ))
    respected (fun n hn => ?_) hu hρ
  cases n with
  | var w =>
    intro ρ hρ
    by_cases hw : w = v
    · simp [hw]
    · simp [hw, eval, set_now_of_ne]
  | next w => exact fun ρ hρ => rfl
  | quant q w body =>
    by_cases hw : w = v
    · exact Or.inl ⟨by simp [hw], fun ρ x => by rw [hw, set_set]⟩
    · refine Or.inr ⟨by simp [hw], fun ρ hρ x hx => ?_⟩
      dsimp only
      rw [apart.eval_set ⟨q, body, hn⟩ hρ hx, set_comm _ hw]
  | integral seg | throughout seg body =>
    exact ⟨_, _, fun ρ _ => ⟨fun w hw => (set_now_of_ne ρ _ hw).symm, fun _ _ => rfl⟩,
      inside _ hn⟩
  | _ => trivial

end

/-- The substitution lemma, for identifiers, for references after a jump and for one variable. -/
theorem substitution_keeps_values {t : Term} (h : WellSorted t)
    (bound : ∀ v, t.Binds v → v.role = .bound) :
    (∀ s : Subst, (∀ e ∈ s, Apart t e.2) →
      (∀ v, var v ∈ t.subterms → v.role = .logical →
        ∀ u, s.get? v.name = some u → u.sort.alike v.sort = true) →
      (∀ n ∈ t.subterms, n.ReadsInside (fun v => v.role ≠ .logical) fun _ => True) →
      ∃ u, t.substitute s = .ok u ∧
        ∀ ρ : Env, ρ.Typed → u.eval ρ = t.eval (ρ.bind (s.mapValues (·.eval ρ)))) ∧
    (∀ s : Subst, (∀ e ∈ s, Apart t e.2) →
      (∀ v, next v ∈ t.subterms →
        ∀ u, s.get? v.name = some u → u.sort.alike v.sort = true) →
      (∀ n ∈ t.subterms, n.ReadsInside (fun _ => True) fun v => s.get? v.name = none) →
      ∃ u, t.substituteNext s = .ok u ∧
        ∀ ρ : Env, ρ.Typed → u.eval ρ = t.eval (ρ.bindNext (s.mapValues (·.eval ρ)))) ∧
    ∀ (v : Var) (d : Term), Apart t d → d.sort.alike v.sort = true →
      (∀ n ∈ t.subterms, n.ReadsInside (· ≠ v) fun _ => True) →
      ∃ u, t.replace v d = .ok u ∧
        ∀ ρ : Env, ρ.Typed → u.eval ρ = t.eval (ρ.set v (d.eval ρ)) :=
  ⟨fun _ apart respects inside => h.eval_substitute apart respects bound inside,
    fun _ apart respects inside => h.eval_substituteNext apart respects inside,
    fun _ _ apart alike inside => h.eval_replace apart alike inside⟩

/-! ## Closed flow primitives -/

/-- The flow and the body of a flow primitive read only what its segment names: mapped identifiers,
the clock, and references that the exit maps. -/
def Closed : Term → Prop
  | integral seg => ∀ a ∈ seg.flow.terms, a.ReadsOnly seg.Knows seg.Resolves
  | throughout seg body => ∀ a ∈ body :: seg.flow.terms, a.ReadsOnly seg.Knows seg.Resolves
  | _ => True

theorem ReadsOnly.mono {P Q : Var → Prop} {t : Term} (h : t.ReadsOnly P Q) {P' Q' : Var → Prop}
    (hP : ∀ v, P v → P' v) (hQ : ∀ v, Q v → Q' v) : t.ReadsOnly P' Q' := by
  induction h generalizing P' Q' with
  | var hv => exact .var (hP _ hv)
  | next hv => exact .next (hQ _ hv)
  | operator ho _ ih => exact .operator ho fun a ha => ih a ha hP hQ
  | quant _ ih => exact .quant (ih (fun v => Or.imp_left (hP v)) hQ)
  | integral _ _ _ ihParts ihRates ihSolution =>
    exact .integral (fun a ha => ihParts a ha hP hQ)
      (fun e he => ihRates e he (fun v => Or.imp_left (hP v)) hQ)
      fun e he => ihSolution e he (fun v => Or.imp_left (hP v)) hQ
  | throughout _ _ _ _ ihParts ihRates ihSolution ihBody =>
    exact .throughout (fun a ha => ihParts a ha hP hQ)
      (fun e he => ihRates e he (fun v => Or.imp_left (hP v)) fun v => Or.imp_left (hQ v))
      (fun e he => ihSolution e he (fun v => Or.imp_left (hP v)) fun v => Or.imp_left (hQ v))
      (ihBody (fun v => Or.imp_left (hP v)) fun v => Or.imp_left (hQ v))

/-- Of what a closed flow primitive reads, only the clock in a rate and the references in the flow
of an integral come from outside. -/
theorem Closed.readsInside {P Q : Var → Prop} {seg : Segment} (clock : P seg.flow.clock) :
    (∀ body, (throughout seg body).Closed → (throughout seg body).ReadsInside P Q) ∧
    ((∀ v, seg.Resolves v → Q v) → (integral seg).Closed → (integral seg).ReadsInside P Q) := by
  have mapped v (hv : seg.Knows v) : P v ∨ seg.Maps v := by
    rcases hv with rfl | hv
    · exact Or.inl clock
    · exact Or.inr hv
  refine ⟨fun body closed => ⟨fun e he => ?_, fun e he => ?_, ?_⟩,
    fun exit closed => ⟨fun e he => ?_, fun e he => ?_⟩⟩
  · exact (closed _ (List.mem_cons_of_mem _ (SegmentOf.mem_terms (Or.inl he)))).mono mapped
      fun _ => Or.inr
  · exact (closed _ (List.mem_cons_of_mem _ (SegmentOf.mem_terms (Or.inr he)))).mono
      (fun _ => Or.inr) fun _ => Or.inr
  · exact (closed _ (List.mem_cons_self ..)).mono (fun _ => Or.inr) fun _ => Or.inr
  · exact (closed _ (SegmentOf.mem_terms (Or.inl he))).mono mapped exit
  · exact (closed _ (SegmentOf.mem_terms (Or.inr he))).mono (fun _ => Or.inr) exit

/-! ## A tank that is filled from a level -/

/-- A tank fills from the level `y` to the level that `y` has after the jump. -/
def refilling : Segment where
  flow := filling.flow
  time := filling.time
  entry := [("x", var ⟨"y", .real, .logical⟩)]
  exit := [("x", next ⟨"y", .real, .logical⟩)]
  mode := filling.mode

/-- Some number exceeds the level, and the tank is filled without running over. -/
def refillable : Term :=
  and [quant .any ⟨"b", .real, .bound⟩
      (cmp .lt (var ⟨"y", .real, .logical⟩) (var ⟨"b", .real, .bound⟩)),
    integral refilling, throughout refilling level]

theorem fitting_refilling : refilling.Fitting (level :: refilling.flow.terms) where
  clock := rfl
  time := rfl
  flow := by decide
  moving := by decide
  ends := by simp [refilling, Table.get?]; decide
  now := by
    intro a ha v hv role u hu
    obtain rfl | rfl : v = ⟨"x", .real, .logical⟩ ∨ v = ⟨"m", .real, .logical⟩ := by
      obtain rfl | rfl : a = level ∨ a = var ⟨"m", .real, .logical⟩ := by
        simpa [refilling, filling, FlowOf.terms] using ha
      · exact Or.inl (by simpa [level, mentions, occurrences] using hv)
      · exact Or.inr (mentions_var.1 hv)
    · obtain rfl : var ⟨"y", .real, .logical⟩ = u := Option.some.inj hu
      rfl
    · obtain rfl : num .real 2 = u := Option.some.inj hu
      rfl
  next := by
    intro a ha v hv
    obtain rfl | rfl : a = level ∨ a = var ⟨"m", .real, .logical⟩ := by
      simpa [refilling, filling, FlowOf.terms] using ha
    all_goals simp [level, subterms, nodes] at hv

theorem wellSorted_refillable : WellSorted refillable := by
  have number (s q) : WellSorted (num s q) := .operator rfl rfl (by simp [operands])
  have compared (r : Relation) {a b : Term} (ha : WellSorted a) (hb : WellSorted b)
      (accepts : (Operator.cmp r).accepts [a.sort, b.sort] = true) : WellSorted (cmp r a b) :=
    .operator (o := .cmp r) rfl accepts (by simpa [operands] using ⟨ha, hb⟩)
  have hlevel : WellSorted level := compared .le (.var _) (number _ _) rfl
  have parts : ∀ a ∈ refilling.parts, WellSorted a := by
    simpa [SegmentOf.parts, refilling, filling] using
      ⟨WellSorted.var _, WellSorted.var _, WellSorted.next _, number _ _⟩
  have flow : ∀ a ∈ refilling.flow.terms, WellSorted a := by
    simpa [refilling, filling, FlowOf.terms] using WellSorted.var _
  have fits := fitting_refilling
  refine .operator rfl rfl ?_
  simp only [refillable, operands, List.forall_mem_cons, List.not_mem_nil, false_imp_iff,
    implies_true, and_true]
  refine ⟨.quant rfl (compared .lt (.var _) (.var _) rfl), .integral ?_ parts flow,
    .throughout fits rfl parts (List.forall_mem_cons.2 ⟨hlevel, flow⟩)⟩
  exact { fits with
    now := fun a ha => fits.now a (List.mem_cons_of_mem _ ha)
    next := fun a ha => fits.next a (List.mem_cons_of_mem _ ha) }

theorem nodes_of_refillable {n : Term} (hn : n ∈ refillable.subterms) :
    n = integral refilling ∨ n = throughout refilling level ∨ n.isFlow = false ∧
      (∀ q v body, n = quant q v body → v = ⟨"b", .real, .bound⟩) ∧
      (∀ v, n = var v → v.sort = .real) ∧ ∀ v, n = next v → v.sort = .real := by
  simp only [refillable, refilling, filling, subterms, nodes, nodesAll, nodesTable, if_true,
    List.mem_cons, List.mem_append, List.not_mem_nil, or_false] at hn
  rcases hn with rfl | (rfl | rfl | rfl | rfl) | (rfl | rfl | rfl | rfl | rfl) |
    (rfl | rfl | rfl | rfl | rfl)
  all_goals first
    | exact Or.inl rfl
    | exact Or.inr (Or.inl rfl)
    | exact Or.inr (Or.inr ⟨rfl, by rintro q v body ⟨⟩ <;> rfl, by rintro v ⟨⟩ <;> rfl,
        by rintro v ⟨⟩ <;> rfl⟩)

theorem binds_refillable {v : Var} (h : refillable.Binds v) : v = ⟨"b", .real, .bound⟩ := by
  obtain ⟨q, body, hn⟩ := h
  rcases nodes_of_refillable hn with h | h | ⟨-, h, -⟩
  · cases h
  · cases h
  · exact h q v body rfl

theorem readsInside_refillable {P Q : Var → Prop} (clock : P ⟨"c", .real, .bound⟩)
    (jump : ∀ v : Var, v.name = "x" → Q v) :
    ∀ n ∈ refillable.subterms, n.ReadsInside P Q := by
  have rate : (var ⟨"m", .real, .logical⟩).ReadsOnly refilling.Knows refilling.Resolves :=
    .var (Or.inr ⟨rfl, num .real 2, rfl, rfl⟩)
  have body : level.ReadsOnly refilling.Knows refilling.Resolves := by
    refine .operator rfl ?_
    simp only [level, operands, List.forall_mem_cons, List.not_mem_nil, false_imp_iff,
      implies_true, and_true]
    exact ⟨.var (Or.inr ⟨rfl, var ⟨"y", .real, .logical⟩, rfl, rfl⟩),
      .operator rfl (by simp [operands])⟩
  have flow : ∀ a ∈ refilling.flow.terms, a.ReadsOnly refilling.Knows refilling.Resolves := by
    simpa [refilling, filling, FlowOf.terms] using rate
  have resolves v (h : refilling.Resolves v) : v.name = "x" := by
    obtain ⟨u, hu, -⟩ := h
    by_contra other
    simp [refilling, Table.get?, Ne.symm other] at hu
  intro n hn
  rcases nodes_of_refillable hn with rfl | rfl | ⟨h, -⟩
  · exact (Closed.readsInside clock).2 (fun v hv => jump v (resolves v hv)) flow
  · exact (Closed.readsInside clock).1 level (List.forall_mem_cons.2 ⟨body, flow⟩)
  · cases n <;> trivial

theorem real_refillable {v : Var} (h : var v ∈ refillable.subterms ∨ next v ∈ refillable.subterms) :
    v.sort = .real := by
  rcases h with hn | hn
  · rcases nodes_of_refillable hn with h | h | ⟨-, -, h, -⟩
    · cases h
    · cases h
    · exact h v rfl
  · rcases nodes_of_refillable hn with h | h | ⟨-, -, -, h⟩
    · cases h
    · cases h
    · exact h v rfl

/-- The level is known, or the level after the jump, or the time it takes. -/
theorem substitution_keeps_values_refillable :
    (∃ u, refillable.substitute [("y", num .real 3)] = .ok u ∧ ∀ ρ : Env, ρ.Typed →
      u.eval ρ = refillable.eval (ρ.bind [("y", .number (3 : ℚ))])) ∧
    (∃ u, refillable.substituteNext [("y", num .real 7)] = .ok u ∧ ∀ ρ : Env, ρ.Typed →
      u.eval ρ = refillable.eval (ρ.bindNext [("y", .number (7 : ℚ))])) ∧
    ∃ u, refillable.replace ⟨"d", .real, .timestamp⟩ (num .real 2) = .ok u ∧ ∀ ρ : Env, ρ.Typed →
      u.eval ρ = refillable.eval (ρ.set ⟨"d", .real, .timestamp⟩ (.number (2 : ℚ))) := by
  have apart (q : ℚ) : Apart refillable (num .real q) :=
    ⟨.operator rfl rfl (by simp [operands]), .operator rfl (by simp [operands])⟩
  have respects (q : ℚ) {v : Var}
      (hv : var v ∈ refillable.subterms ∨ next v ∈ refillable.subterms) (u : Term)
      (hu : Table.get? [("y", num .real q)] v.name = some u) : u.sort.alike v.sort = true := by
    obtain ⟨-, rfl⟩ : "y" = v.name ∧ num .real q = u := by simpa [Table.get?] using hu
    rw [real_refillable hv]
    rfl
  obtain ⟨now, next, one⟩ := substitution_keeps_values wellSorted_refillable fun v hv => by
    rw [binds_refillable hv]
  refine ⟨?_, ?_, ?_⟩
  · refine now _ (by simpa using apart 3) (fun v hv _ => respects 3 (Or.inl hv)) ?_
    exact readsInside_refillable (by decide) fun _ _ => trivial
  · refine next _ (by simpa using apart 7) (fun v hv => respects 7 (Or.inr hv)) ?_
    refine readsInside_refillable trivial fun v hv => ?_
    simp [Table.get?, hv]
  · refine one _ _ (apart 2) rfl ?_
    exact readsInside_refillable (by decide) fun _ _ => trivial

/-! ## A flow that reads what is changed -/

def drifting (rate : Term) : Segment where
  flow := ⟨⟨"c", .real, .bound⟩, [("x", rate)], []⟩
  time := num .real 1
  entry := [("x", zero)]
  exit := [("x", var ⟨"y", .real, .continuous⟩)]
  mode := []

theorem holds_drifting (rate : Term) (ρ : Env) : (integral (drifting rate)).Holds ρ ↔
    Value.number (rate.eval (ρ.bind [("x", .number 0)])).toReal =
      ρ.now ⟨"y", .real, .continuous⟩ := by
  rw [Term.Holds, eval_integral, Value.holds_truth]
  simp [drifting, evalTable, eval, FlowOf.stateAt, FlowOf.reach, FlowOf.moved, Table.get?, zero,
    real, Table.merge, Table.putAll, Table.put]

theorem wellSorted_drifting {rate : Term} (h : WellSorted rate) (numeric : rate.sort = .real)
    (now : ∀ v, rate.mentions v = true → v.sort = .real)
    (next : ∀ v, Term.next v ∈ rate.subterms → v.sort = .real) :
    WellSorted (integral (drifting rate)) := by
  have number (q : ℚ) : WellSorted (num .real q) := .operator rfl rfl (by simp [operands])
  refine .integral ⟨rfl, rfl, ?_, ?_, ?_, ?_, ?_⟩ ?_ ?_
  · simp [drifting, FlowOf.terms, numeric, TermSort.numeric]
  · simp [drifting, zero, Term.real, sort, NumSort.toSort, TermSort.numeric]
  · simp [drifting, Table.get?]; decide
  · intro a ha v hv _ u hu
    obtain rfl : a = rate := by simpa [drifting, FlowOf.terms] using ha
    obtain ⟨-, rfl⟩ : "x" = v.name ∧ zero = u := by
      simpa [drifting, SegmentOf.context, Table.merge, Table.putAll, Table.put, Table.get?] using hu
    rw [now v hv]
    rfl
  · intro a ha v hv u hu
    obtain rfl : a = rate := by simpa [drifting, FlowOf.terms] using ha
    obtain ⟨-, rfl⟩ : "x" = v.name ∧ var _ = u := by simpa [drifting, Table.get?] using hu
    rw [next v hv]
    rfl
  · simpa [drifting, SegmentOf.parts, zero, real] using ⟨number 1, number 0, WellSorted.var _⟩
  · simpa [drifting, FlowOf.terms] using h

theorem nodes_of_drifting {rate n : Term} (hn : n ∈ (integral (drifting rate)).subterms) :
    n = integral (drifting rate) ∨
      n.isFlow = false ∧ (∀ q v body, n ≠ quant q v body) ∧ ∀ v, n ≠ next v := by
  simp only [drifting, subterms, nodes, nodesTable, if_true, zero, real, List.mem_cons,
    List.mem_append, List.not_mem_nil, or_false] at hn
  rcases hn with rfl | rfl | rfl | rfl
  all_goals first
    | exact Or.inl rfl
    | exact Or.inr ⟨rfl, by rintro q v body ⟨⟩, by rintro v ⟨⟩⟩

/-- A rate that reads the clock does so before the clock runs, and the references in the flow of an
integral are not resolved by its exit. Neither is reached when a term is put in the place of the
clock or of the reference, so a closed flow primitive is not the original in the changed
environment. -/
theorem substitution_leaves_rates :
    (∃ (t : Term) (v : Var) (d : Term), WellSorted t ∧ (∀ w, ¬t.Binds w) ∧
      (∀ n ∈ t.subterms, n.Closed) ∧ Apart t d ∧ d.sort = v.sort ∧ t.replace v d = .ok t ∧
      ∃ ρ : Env, ρ.Sorted ∧ t.eval ρ ≠ t.eval (ρ.set v (d.eval ρ))) ∧
    ∃ (t : Term) (s : Subst), WellSorted t ∧ (∀ w, ¬t.Binds w) ∧ (∀ n ∈ t.subterms, n.Closed) ∧
      (∀ e ∈ s, Apart t e.2) ∧ (∀ v, next v ∉ t.subterms) ∧ t.substituteNext s = .ok t ∧
      ∃ ρ : Env, ρ.Sorted ∧ t.eval ρ ≠ t.eval (ρ.bindNext (s.mapValues (·.eval ρ))) := by
  have apart (t : Term) : Apart t (num .real 5) :=
    ⟨.operator rfl rfl (by simp [operands]), .operator rfl (by simp [operands])⟩
  have binds (rate : Term) (w : Var) : ¬(integral (drifting rate)).Binds w := by
    rintro ⟨q, body, hn⟩
    rcases nodes_of_drifting hn with h | ⟨-, h, -⟩
    · cases h
    · exact h q w body rfl
  have closed {rate : Term} (h : rate.ReadsOnly (drifting rate).Knows (drifting rate).Resolves) :
      ∀ n ∈ (integral (drifting rate)).subterms, n.Closed := by
    intro n hn
    rcases nodes_of_drifting hn with rfl | ⟨h, -⟩
    · simpa [Closed, drifting, FlowOf.terms] using h
    · cases n <;> trivial
  have changed {t : Term} {ρ ρ' : Env} (h : t.Holds ρ) (h' : ¬t.Holds ρ') : t.eval ρ ≠ t.eval ρ' :=
    fun same => h' (by rwa [Term.Holds, ← same])
  constructor
  · refine ⟨integral (drifting (var ⟨"c", .real, .bound⟩)), ⟨"c", .real, .bound⟩, num .real 5,
      wellSorted_drifting (.var _) rfl ?_ ?_, binds _, closed (.var (Or.inl rfl)), apart _, rfl,
      by cbv, Env.blank, Env.blank_sorted, changed ?_ ?_⟩
    · intro v hv
      rw [mentions_var.1 hv]
    · simp
    · simp [holds_drifting, eval, Env.bind, Env.blank]
    · simp [holds_drifting, eval, Env.bind, Env.blank, Env.set]
  · refine ⟨integral (drifting (next ⟨"x", .real, .logical⟩)), [("x", num .real 5)],
      wellSorted_drifting (.next _) rfl ?_ ?_, binds _,
      closed (.next ⟨_, rfl, rfl⟩), by simpa using apart _, ?_, by cbv, Env.blank,
      Env.blank_sorted, changed ?_ ?_⟩
    · simp [mentions, occurrences]
    · simp
    · intro v hn
      rcases nodes_of_drifting hn with h | ⟨-, -, h⟩
      · cases h
      · exact h v rfl
    · simp [holds_drifting, eval, Env.bind, Env.blank]
    · simp [holds_drifting, eval, Env.bind, Env.blank, Env.bindNext, Table.get?, Table.mapValues,
        Value.found, Value.Fits]

end Term

end HybridCheck
